/-
# Two processes and a transport

A dialogue is two programs with a queue in each direction.  What one party sends is delivered to
the other once, unchanged and in order; a party that has `capacity` frames on the way waits before
it sends the next.  The parties act in any order.

What one party does never takes an action away from the other, so the order of actions makes no
difference (`Step.diamond`).  Therefore one schedule that brings both programs to their ends speaks
for all of them: every run is finite, and every run ends there (`settles_of_carried`).  Such a
schedule is found on the two traces alone (`Carried`), without the programs.
-/
import Mathlib.Data.ENat.Basic
import Mathlib.Logic.Relation
import PqcEdr.Lib.Process

namespace Proc

variable {F E X α : Type}

/-! ## 1. One action -/

inductive Does : Proc F E X α → Act F E → Proc F E X α → Prop
  | send (f p) : Does (send f p) (.sent f) p
  | recv (next f) : Does (recv next) (.received f) (next f)
  | note (e p) : Does (note e p) (.noted e) p

variable {p q : Proc F E X α} {a : Act F E} {t : List (Act F E)}

/-- A run is its first action and a run. -/
theorem Run.exists_does (h : Run p (a :: t) q) : ∃ p', Does p a p' ∧ Run p' t q := by
  cases h with
  | send h => exact ⟨_, .send _ _, h⟩
  | recv h => exact ⟨_, .recv _ _, h⟩
  | note h => exact ⟨_, .note _ _, h⟩

theorem Over.not_does (h : p.Over) : ¬ Does p a q := by
  intro hdoes
  cases hdoes <;> exact h

/-! ## 2. Runs of a program, forward -/

section

variable {β : Type} {q : Proc F E X β}

theorem Run.lift {x : Except X α} {k : α → Proc F E X β} {b : α} (hx : x = .ok b)
    (h : Run (k b) t q) : Run (Proc.lift x >>= k) t q := by
  subst hx
  exact h

theorem Run.sending {f : F} {k : Unit → Proc F E X β} (h : Run (k ()) t q) :
    Run (sendFrame f >>= k) (.sent f :: t) q := .send h

theorem Run.receiving {f : F} {k : F → Proc F E X β} (h : Run (k f) t q) :
    Run (recvFrame >>= k) (.received f :: t) q := .recv h

theorem Run.noting {e : E} {k : Unit → Proc F E X β} (h : Run (k ()) t q) :
    Run (noteThat e >>= k) (.noted e :: t) q := .note h

end

end Proc

/-! ## 3. The transport -/

/-- An action passes the transport: from an `inbox`, with `n` frames on the way to the other
party, to what is left of the inbox and what is put on the way. -/
inductive Passes {F E : Type} (capacity : ℕ∞) : Act F E → List F → ℕ → List F → List F → Prop
  | sent {f : F} {inbox : List F} {n : ℕ} (hroom : (n : ℕ∞) < capacity) :
      Passes capacity (.sent f) inbox n inbox [f]
  | received {f : F} {inbox : List F} {n : ℕ} :
      Passes capacity (.received f) (f :: inbox) n inbox []
  | noted {e : E} {inbox : List F} {n : ℕ} : Passes capacity (.noted e) inbox n inbox []

namespace Passes

variable {F E : Type} {capacity : ℕ∞} {a : Act F E} {inbox inbox' new : List F} {n : ℕ}

/-- More frames in the inbox and fewer on the way do not stop an action. -/
theorem frame (h : Passes capacity a inbox n inbox' new) (more : List F) {m : ℕ} (hm : m ≤ n) :
    Passes capacity a (inbox ++ more) m (inbox' ++ more) new := by
  cases h with
  | sent hroom => exact .sent (lt_of_le_of_lt (Nat.cast_le.mpr hm) hroom)
  | received => exact .received
  | noted => exact .noted

theorem length_le (h : Passes capacity a inbox n inbox' new) : inbox'.length ≤ inbox.length := by
  cases h with
  | sent => exact le_rfl
  | received => exact Nat.le_succ _
  | noted => exact le_rfl

end Passes

/-! ## 4. Dialogues -/

/-- A party: what it has done, what it has left to do, and the frames that wait for it, oldest
first. -/
structure Peer (F E X α : Type) where
  trace : List (Act F E)
  proc : Proc F E X α
  inbox : List F

structure Dialogue (F E X α : Type) where
  left : Peer F E X α
  right : Peer F E X α

namespace Peer

open Proc

variable {F E X α : Type} {capacity : ℕ∞}

def deliver (p : Peer F E X α) (new : List F) : Peer F E X α := { p with inbox := p.inbox ++ new }

/-- One action of a party that has `n` frames on the way. -/
inductive Move (capacity : ℕ∞) : Peer F E X α → ℕ → Peer F E X α → List F → Prop
  | mk {t : List (Act F E)} {p p' : Proc F E X α} {a : Act F E} {inbox inbox' new : List F} {n : ℕ}
      (hdoes : Does p a p') (hpasses : Passes capacity a inbox n inbox' new) :
      Move capacity ⟨t, p, inbox⟩ n ⟨t ++ [a], p', inbox'⟩ new

variable {p p' p'' : Peer F E X α} {n : ℕ} {new new' : List F}

/-- What a party does next is determined. -/
theorem Move.unique (h : Move capacity p n p' new) (h' : Move capacity p n p'' new') :
    p' = p'' ∧ new = new' := by
  obtain ⟨hdoes, hpasses⟩ := h
  obtain ⟨hdoes', hpasses'⟩ := h'
  cases hdoes <;> cases hdoes' <;> cases hpasses <;> cases hpasses' <;> exact ⟨rfl, rfl⟩

theorem Move.frame (h : Move capacity p n p' new) (more : List F) {m : ℕ} (hm : m ≤ n) :
    Move capacity (p.deliver more) m (p'.deliver more) new := by
  obtain ⟨hdoes, hpasses⟩ := h
  exact ⟨hdoes, hpasses.frame more hm⟩

theorem Move.length_inbox_le (h : Move capacity p n p' new) :
    p'.inbox.length ≤ p.inbox.length := by
  obtain ⟨-, hpasses⟩ := h
  exact hpasses.length_le

/-- An action is put at the end of the trace. -/
theorem Move.trace (h : Move capacity p n p' new) : ∃ a, p'.trace = p.trace ++ [a] := by
  obtain ⟨-, -⟩ := h
  exact ⟨_, rfl⟩

theorem Move.not_over (h : Move capacity p n p' new) : ¬ p.proc.Over := by
  obtain ⟨hdoes, -⟩ := h
  exact fun hover => hover.not_does hdoes

end Peer

namespace Dialogue

open Proc Relation

variable {F E X α : Type}

def start (p q : Proc F E X α) : Dialogue F E X α := ⟨⟨[], p, []⟩, ⟨[], q, []⟩⟩

/-- The frames on the way to a party are those that wait for it. -/
inductive Step (capacity : ℕ∞) : Dialogue F E X α → Dialogue F E X α → Prop
  | left {l l' r : Peer F E X α} {new : List F} (h : l.Move capacity r.inbox.length l' new) :
      Step capacity ⟨l, r⟩ ⟨l', r.deliver new⟩
  | right {l r r' : Peer F E X α} {new : List F} (h : r.Move capacity l.inbox.length r' new) :
      Step capacity ⟨l, r⟩ ⟨l.deliver new, r'⟩

def Reaches (capacity : ℕ∞) : Dialogue F E X α → Dialogue F E X α → Prop :=
  ReflTransGen (Step capacity)

variable {capacity : ℕ∞} {d d₁ d₂ e : Dialogue F E X α}

/-- The parties' actions commute. -/
theorem Step.diamond (h₁ : Step capacity d d₁) (h₂ : Step capacity d d₂) :
    d₁ = d₂ ∨ ∃ d', Step capacity d₁ d' ∧ Step capacity d₂ d' := by
  cases h₁ with
  | left hl =>
    cases h₂ with
    | left hl' =>
      obtain ⟨rfl, rfl⟩ := hl.unique hl'
      exact Or.inl rfl
    | right hr =>
      exact Or.inr ⟨_, .right (hr.frame _ hl.length_inbox_le),
        .left (hl.frame _ hr.length_inbox_le)⟩
  | right hr =>
    cases h₂ with
    | left hl =>
      exact Or.inr ⟨_, .left (hl.frame _ hr.length_inbox_le),
        .right (hr.frame _ hl.length_inbox_le)⟩
    | right hr' =>
      obtain ⟨rfl, rfl⟩ := hr.unique hr'
      exact Or.inl rfl

/-- Two runs from one dialogue can be continued to meet. -/
theorem Reaches.join (h₁ : Reaches capacity d d₁) (h₂ : Reaches capacity d d₂) :
    Join (Reaches capacity) d₁ d₂ := by
  refine church_rosser ?_ h₁ h₂
  intro a b c hab hac
  rcases hab.diamond hac with rfl | ⟨e, hbe, hce⟩
  · exact ⟨b, .refl, .refl⟩
  · exact ⟨e, .single hbe, .single hce⟩

/-! ## 5. What is done is done -/

theorem Step.trace_grows (h : Step capacity d e) :
    d.left.trace <+: e.left.trace ∧ d.right.trace <+: e.right.trace := by
  cases h with
  | left hl =>
    obtain ⟨a, ha⟩ := hl.trace
    exact ⟨⟨[a], ha.symm⟩, List.prefix_rfl⟩
  | right hr =>
    obtain ⟨a, ha⟩ := hr.trace
    exact ⟨List.prefix_rfl, ⟨[a], ha.symm⟩⟩

theorem Reaches.trace_grows (h : Reaches capacity d e) :
    d.left.trace <+: e.left.trace ∧ d.right.trace <+: e.right.trace := by
  induction h with
  | refl => exact ⟨List.prefix_rfl, List.prefix_rfl⟩
  | tail _ hstep ih =>
    obtain ⟨hl, hr⟩ := hstep.trace_grows
    exact ⟨ih.1.trans hl, ih.2.trans hr⟩

/-- How many actions there have been. -/
def age (d : Dialogue F E X α) : ℕ := d.left.trace.length + d.right.trace.length

theorem Step.age (h : Step capacity d e) : e.age = d.age + 1 := by
  cases h with
  | left hl =>
    obtain ⟨a, ha⟩ := hl.trace
    simp only [Dialogue.age, ha, List.length_append, List.length_singleton, Peer.deliver]
    omega
  | right hr =>
    obtain ⟨a, ha⟩ := hr.trace
    simp only [Dialogue.age, ha, List.length_append, List.length_singleton, Peer.deliver]
    omega

theorem Reaches.age_le (h : Reaches capacity d e) : d.age ≤ e.age := by
  obtain ⟨hl, hr⟩ := h.trace_grows
  exact Nat.add_le_add hl.length_le hr.length_le

/-! ## 6. Dialogues that end -/

/-- Both programs are over. -/
def Over (d : Dialogue F E X α) : Prop := d.left.proc.Over ∧ d.right.proc.Over

theorem Over.not_step (h : d.Over) : ¬ Step capacity d e := by
  intro hstep
  cases hstep with
  | left hl => exact hl.not_over h.1
  | right hr => exact hr.not_over h.2

/-- Every run from `d` is finite, and ends in `e`: there is no other place to get stuck. -/
structure Settles (capacity : ℕ∞) (d e : Dialogue F E X α) : Prop where
  no_deadlock : ∀ d', Reaches capacity d d' → d' = e ∨ ∃ d'', Step capacity d' d''
  leads_to : ∀ d', Reaches capacity d d' → Reaches capacity d' e
  ended : e.Over
  finite : ∀ run : ℕ → Dialogue F E X α, run 0 = d → ¬ ∀ n, Step capacity (run n) (run (n + 1))
  in_order : ∀ d', Reaches capacity d d' →
    d'.left.trace <+: e.left.trace ∧ d'.right.trace <+: e.right.trace

theorem reaches_run {run : ℕ → Dialogue F E X α}
    (h : ∀ n, Step capacity (run n) (run (n + 1))) (n : ℕ) :
    Reaches capacity (run 0) (run n) ∧ (run n).age = (run 0).age + n := by
  induction n with
  | zero => exact ⟨.refl, rfl⟩
  | succ n ih => exact ⟨ih.1.tail (h n), by rw [(h n).age, ih.2, Nat.add_assoc]⟩

/-- One run to the end speaks for all. -/
theorem Reaches.settles (h : Reaches capacity d e) (hover : e.Over) : Settles capacity d e := by
  have hleads : ∀ d', Reaches capacity d d' → Reaches capacity d' e := by
    intro d' hd'
    obtain ⟨e', hd', he⟩ := hd'.join h
    rcases ReflTransGen.cases_head he with rfl | ⟨_, hstep, -⟩
    · exact hd'
    · exact absurd hstep hover.not_step
  refine ⟨?_, hleads, hover, ?_, fun d' hd' => (hleads d' hd').trace_grows⟩
  · intro d' hd'
    rcases ReflTransGen.cases_head (hleads d' hd') with heq | ⟨d'', hstep, -⟩
    · exact Or.inl heq
    · exact Or.inr ⟨d'', hstep⟩
  · rintro run rfl hrun
    obtain ⟨hreach, hage⟩ := reaches_run hrun (e.age + 1)
    have hle := (hleads _ hreach).age_le
    omega

/-! ## 7. Schedules -/

/-- The actions that the two parties have yet to do can be put in an order that the transport
carries, from these two inboxes, until nothing is left. -/
inductive Carried (capacity : ℕ∞) :
    List (Act F E) → List (Act F E) → List F → List F → Prop
  | done : Carried capacity [] [] [] []
  | left {a : Act F E} {t u : List (Act F E)} {i i' o new : List F}
      (hpasses : Passes capacity a i o.length i' new) (h : Carried capacity t u i' (o ++ new)) :
      Carried capacity (a :: t) u i o
  | right {a : Act F E} {t u : List (Act F E)} {i o o' new : List F}
      (hpasses : Passes capacity a o i.length o' new) (h : Carried capacity t u (i ++ new) o') :
      Carried capacity t (a :: u) i o

variable {t u : List (Act F E)} {p q p' q' : Proc F E X α}

theorem Carried.reaches {i o : List F} (h : Carried capacity t u i o) (hp : Run p t q)
    (hp' : Run p' u q') (x y : List (Act F E)) :
    Reaches capacity ⟨⟨x, p, i⟩, ⟨y, p', o⟩⟩ ⟨⟨x ++ t, q, []⟩, ⟨y ++ u, q', []⟩⟩ := by
  induction h generalizing p p' x y with
  | done =>
    cases hp
    cases hp'
    rw [List.append_nil, List.append_nil]
    exact .refl
  | @left a t u i i' o new hpasses _ ih =>
    obtain ⟨p₁, hdoes, hp⟩ := hp.exists_does
    have hrest := ih hp hp' (x ++ [a]) y
    rw [List.append_assoc] at hrest
    exact .head (.left (r := ⟨y, p', o⟩) ⟨hdoes, hpasses⟩) hrest
  | @right a t u i o o' new hpasses _ ih =>
    obtain ⟨p₁, hdoes, hp'⟩ := hp'.exists_does
    have hrest := ih hp hp' x (y ++ [a])
    rw [List.append_assoc] at hrest
    exact .head (.right (l := ⟨x, p, i⟩) ⟨hdoes, hpasses⟩) hrest

theorem settles_of_carried (h : Carried capacity t u [] []) (hp : Run p t q) (hp' : Run p' u q')
    (hq : q.Over) (hq' : q'.Over) :
    Settles capacity (start p p') ⟨⟨t, q, []⟩, ⟨u, q', []⟩⟩ :=
  (h.reaches hp hp' [] []).settles ⟨hq, hq'⟩

end Dialogue
