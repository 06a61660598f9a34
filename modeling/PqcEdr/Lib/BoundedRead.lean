/-
# Reading a string inside a bounded piece of memory

The loops of a C library over a string that ends with a terminator, as reads of a piece of memory
that has an end of its own.  A loop that asks for a byte behind that end has left the piece: it
has no result, only the name of the piece.  For each loop: when does it stay inside, and what does
it read then?
-/
import Mathlib.Data.List.Infix
import Mathlib.Tactic.Common

namespace BoundedRead

variable {α β ε : Type}

/-! ## 1. The loops -/

section

variable [DecidableEq α] (z : α) (e : ε)

/-- `std::string(s)`, `strlen`, `%s`: up to the terminator. -/
def scan : List α → Except ε (List α)
  | [] => .error e
  | b :: bs => if b = z then .ok [] else (scan bs).map (b :: ·)

/-- `strnlen` and its like: up to the terminator, and no further than `n`. -/
def scanN : ℕ → List α → Except ε (List α)
  | 0, _ => .ok []
  | _ + 1, [] => .error e
  | n + 1, b :: bs => if b = z then .ok [] else (scanN n bs).map (b :: ·)

/-- `strncmp(s, p, strlen(p)) == 0`, up to the first difference. -/
def hasPrefix : List α → List α → Except ε Bool
  | [], _ => .ok true
  | _ :: _, [] => .error e
  | c :: cs, b :: bs => if b = c then hasPrefix cs bs else .ok false

/-- `s[0]`. -/
def first : List α → Except ε α
  | [] => .error e
  | b :: _ => .ok b

end

/-! ## 2. When a read stays inside -/

/-- `x` stays inside exactly when `p` holds, and reads `a` then. -/
structure StaysIff (x : Except ε α) (p : Prop) (a : α) : Prop where
  inside : p → x = .ok a
  outside : ¬ p → ∃ e, x = .error e

namespace StaysIff

variable {x : Except ε α} {f : α → Except ε β} {p q : Prop} {a : α} {b : β}

theorem ok (a : α) : StaysIff (.ok a : Except ε α) True a :=
  ⟨fun _ => rfl, fun h => absurd trivial h⟩

theorem iff (h : StaysIff x p a) : (∃ r, x = .ok r) ↔ p := by
  constructor
  · rintro ⟨r, hr⟩
    by_contra hp
    obtain ⟨e, he⟩ := h.outside hp
    rw [he] at hr
    cases hr
  · exact fun hp => ⟨a, h.inside hp⟩

theorem congr (h : StaysIff x p a) (hpq : p ↔ q) : StaysIff x q a :=
  ⟨fun hq => h.inside (hpq.mpr hq), fun hq => h.outside fun hp => hq (hpq.mp hp)⟩

/-- The second read counts where the first stays inside. -/
theorem bind (h : StaysIff x p a) (hf : p → StaysIff (f a) q b) :
    StaysIff (x >>= f) (p ∧ q) b := by
  by_cases hp : p
  · rw [h.inside hp]
    exact (hf hp).congr (and_iff_right hp).symm
  · obtain ⟨e, he⟩ := h.outside hp
    rw [he]
    exact ⟨fun hpq => absurd hpq.1 hp, fun _ => ⟨e, rfl⟩⟩

theorem after (hx : x = .ok a) (hf : StaysIff (f a) q b) : StaysIff (x >>= f) q b := by
  rw [hx]
  exact hf

theorem last (h : StaysIff x p a) (g : α → β) : StaysIff (x >>= fun a => pure (g a)) p (g a) :=
  (h.bind fun _ => ok (g a)).congr (and_iff_left trivial)

theorem map (h : StaysIff x p a) (g : α → β) : StaysIff (g <$> x) p (g a) := by
  constructor
  · intro hp
    rw [h.inside hp]
    rfl
  · intro hp
    obtain ⟨e, he⟩ := h.outside hp
    exact ⟨e, by rw [he]; rfl⟩

end StaysIff

/-! ## 3. The loops stay inside when -/

section

variable [DecidableEq α] {z : α} {e : ε} {s : List α}

/-- A scan needs a terminator. -/
theorem scan_staysIff : StaysIff (scan z e s) (z ∈ s) (s.takeWhile (· ≠ z)) := by
  induction s with
  | nil => exact ⟨fun h => absurd h List.not_mem_nil, fun _ => ⟨e, rfl⟩⟩
  | cons b bs ih =>
    unfold scan
    by_cases hb : b = z
    · rw [if_pos hb]
      exact ⟨fun _ => by simp [hb], fun h => absurd (by simp [hb]) h⟩
    · rw [if_neg hb]
      constructor
      · intro h
        have hbs := ih.inside ((List.mem_cons.mp h).resolve_left (Ne.symm hb))
        rw [hbs]
        simp [hb, Except.map]
      · intro h
        obtain ⟨e', he⟩ := ih.outside fun hmem => h (List.mem_cons_of_mem b hmem)
        exact ⟨e', by rw [he]; rfl⟩

/-- A bound that the piece keeps is enough. -/
theorem scanN_eq {n : ℕ} (h : n ≤ s.length) :
    scanN z e n s = .ok ((s.take n).takeWhile (· ≠ z)) := by
  induction n generalizing s with
  | zero => simp [scanN]
  | succ n ih =>
    cases s with
    | nil => cases h
    | cons b bs =>
      unfold scanN
      rw [ih (Nat.le_of_succ_le_succ h)]
      by_cases hb : b = z <;> simp [hb, Except.map]

/-- A comparison with a word never reads more than the word. -/
theorem hasPrefix_eq {p : List α} (hp : z ∉ p) (h : p.length ≤ s.length) (rest : List α) :
    hasPrefix e p s = .ok (p.isPrefixOf ((s ++ rest).takeWhile (· ≠ z))) := by
  induction p generalizing s with
  | nil => simp [hasPrefix]
  | cons c cs ih =>
    cases s with
    | nil => cases h
    | cons b bs =>
      obtain ⟨hc, hcs⟩ := List.ne_and_not_mem_of_not_mem_cons hp
      unfold hasPrefix
      by_cases hb : b = c
      · subst hb
        rw [if_pos rfl, ih hcs (Nat.le_of_succ_le_succ h)]
        simp [Ne.symm hc]
      · rw [if_neg hb]
        by_cases hbz : b = z
        · simp [hbz]
        · simp [hbz, List.isPrefixOf, Ne.symm hb]

end

end BoundedRead
