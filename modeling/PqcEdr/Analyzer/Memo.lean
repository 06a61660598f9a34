/-
# The memo of the evaluation

`analyzer/src/eval.cpp`: `MemoLlm` stands before a client and calls it once for a context of a
tier, up to a cap for both tiers together.  What it owes its caller is a matter of the requests
alone: the first distinct ones, as many as the cap allows, are the calls that are made, and every
reply can be read off them.
-/
import PqcEdr.Analyzer.Pipeline
import PqcEdr.Lib.Budget

namespace PqcEdr.Analyzer

open Budget

/-! ## 1. `MemoLlm` -/

/-- A tier (`deep`) and a context. -/
abbrev Request := Bool × Bytes

/-- `deep ? inner_.deep_analyze(ctx) : inner_.classify(ctx)`. -/
def LlmClient.ask (L : LlmClient) (deep : Bool) (ctx : Bytes) (s : L.State) :
    Classification × L.State :=
  if deep then L.deepAnalyze ctx s else L.classify ctx s

/-- `cap_` is a `size_t`; the counters are `uint64_t`. -/
structure MemoLlm (L : LlmClient) where
  inner : L.State
  cap : UInt64
  calls : UInt64 := 0
  hits : UInt64 := 0
  capped : UInt64 := 0
  haiku_in : UInt64 := 0
  haiku_out : UInt64 := 0
  sonnet_in : UInt64 := 0
  sonnet_out : UInt64 := 0
  haiku : AssocMap Bytes Classification := ∅
  sonnet : AssocMap Bytes Classification := ∅

/-- The reply where the budget is used up. -/
def cappedReply : Classification where
  model := lit "capped"
  verdict := .Unknown
  reason := lit "eval --max-llm-calls 도달"

/-- A repeated reply: it was no call, so it costs nothing. -/
def Classification.withoutTokens (c : Classification) : Classification :=
  { c with input_tokens := 0, output_tokens := 0 }

namespace MemoLlm

variable {L : LlmClient}

/-- The table of a tier. -/
def memo (m : MemoLlm L) (deep : Bool) : AssocMap Bytes Classification :=
  if deep then m.sonnet else m.haiku

/-- What is counted and kept of a call. -/
def record (m : MemoLlm L) (ctx : Bytes) (deep : Bool) (c : Classification) (inner : L.State) :
    MemoLlm L :=
  { m with
    inner := inner
    calls := m.calls + 1
    haiku_in := if deep then m.haiku_in else m.haiku_in + c.input_tokens
    haiku_out := if deep then m.haiku_out else m.haiku_out + c.output_tokens
    sonnet_in := if deep then m.sonnet_in + c.input_tokens else m.sonnet_in
    sonnet_out := if deep then m.sonnet_out + c.output_tokens else m.sonnet_out
    haiku := if deep then m.haiku else m.haiku.put ctx c
    sonnet := if deep then m.sonnet.put ctx c else m.sonnet }

def get (ctx : Bytes) (deep : Bool) (m : MemoLlm L) : Classification × MemoLlm L :=
  match (m.memo deep).find? ctx with
  | some c => (c.withoutTokens, { m with hits := m.hits + 1 })
  | none =>
    if m.calls ≥ m.cap then (cappedReply, { m with capped := m.capped + 1 })
    else
      let (c, inner) := L.ask deep ctx m.inner
      (c, m.record ctx deep c inner)

end MemoLlm

/-- `MemoLlm` is a client itself. -/
abbrev memoLlm (L : LlmClient) : LlmClient where
  State := MemoLlm L
  classify ctx := MemoLlm.get ctx false
  deepAnalyze ctx := MemoLlm.get ctx true

/-- The replies of a client to some requests. -/
def LlmClient.askAll (L : LlmClient) : List Request → L.State → List Classification × L.State
  | [], s => ([], s)
  | (deep, ctx) :: reqs, s =>
    let (c, s) := L.ask deep ctx s
    let (cs, s) := L.askAll reqs s
    (c :: cs, s)

/-! ## 2. What the memo owes -/

/-- The reply to `r` after `before`: of a context that was called, the inner one at no cost; of
another one the inner one while the budget lasts, and the capped one from then on. -/
def memoReply (reply : Request → Classification) (cap : ℕ) (before : List Request) (r : Request) :
    Classification :=
  if r ∈ admitted cap before then (reply r).withoutTokens
  else if (admitted cap before).length < cap then reply r
  else cappedReply

/-- The tokens of the calls of one tier. -/
def tierTokens (reply : Request → Classification) (tokens : Classification → UInt64) (deep : Bool)
    (made : List Request) : UInt64 :=
  ((made.filter fun r => r.1 = deep).map fun r => tokens (reply r)).foldl (· + ·) 0

/-- The state behind some requests, read off the calls that they led to. -/
structure Accounts (L : LlmClient) (reply : Request → Classification) (s₀ : L.State) (cap : UInt64)
    (reqs : List Request) (m : MemoLlm L) : Prop where
  budget : m.cap = cap
  inner : m.inner = (L.askAll (admitted cap.toNat reqs) s₀).2
  calls : m.calls.toNat = (admitted cap.toNat reqs).length
  counts : m.calls + m.hits + m.capped = UInt64.ofNat reqs.length
  memo : ∀ deep ctx, (m.memo deep).find? ctx =
    if (deep, ctx) ∈ admitted cap.toNat reqs then some (reply (deep, ctx)) else none
  haiku_in : m.haiku_in =
    tierTokens reply Classification.input_tokens false (admitted cap.toNat reqs)
  haiku_out : m.haiku_out =
    tierTokens reply Classification.output_tokens false (admitted cap.toNat reqs)
  sonnet_in : m.sonnet_in =
    tierTokens reply Classification.input_tokens true (admitted cap.toNat reqs)
  sonnet_out : m.sonnet_out =
    tierTokens reply Classification.output_tokens true (admitted cap.toNat reqs)

/-! ## 3. One request -/

theorem askAll_append (L : LlmClient) (reqs : List Request) (r : Request) (s : L.State) :
    L.askAll (reqs ++ [r]) s =
      ((L.askAll reqs s).1 ++ [(L.ask r.1 r.2 (L.askAll reqs s).2).1],
        (L.ask r.1 r.2 (L.askAll reqs s).2).2) := by
  induction reqs generalizing s with
  | nil => rfl
  | cons q reqs ih =>
    rw [List.cons_append]
    unfold LlmClient.askAll
    simp only [ih, List.cons_append]

theorem length_askAll (L : LlmClient) (reqs : List Request) (s : L.State) :
    (L.askAll reqs s).1.length = reqs.length := by
  induction reqs generalizing s with
  | nil => rfl
  | cons q reqs ih => exact congrArg (· + 1) (ih _)

theorem tierTokens_append (reply : Request → Classification) (tokens : Classification → UInt64)
    (deep : Bool) (made : List Request) (r : Request) :
    tierTokens reply tokens deep (made ++ [r]) =
      if r.1 = deep then tierTokens reply tokens deep made + tokens (reply r)
      else tierTokens reply tokens deep made := by
  unfold tierTokens
  rw [List.filter_append]
  by_cases h : r.1 = deep <;> simp [h]

namespace MemoLlm

variable {L : LlmClient}

theorem get_of_hit {m : MemoLlm L} {deep : Bool} {ctx : Bytes} {c : Classification}
    (h : (m.memo deep).find? ctx = some c) :
    m.get ctx deep = (c.withoutTokens, { m with hits := m.hits + 1 }) := by
  unfold get
  rw [h]

theorem get_of_capped {m : MemoLlm L} {deep : Bool} {ctx : Bytes}
    (h : (m.memo deep).find? ctx = none) (hcap : m.cap ≤ m.calls) :
    m.get ctx deep = (cappedReply, { m with capped := m.capped + 1 }) := by
  unfold get
  rw [h]
  exact if_pos hcap

theorem get_of_call {m : MemoLlm L} {deep : Bool} {ctx : Bytes}
    (h : (m.memo deep).find? ctx = none) (hcap : ¬ m.cap ≤ m.calls) :
    m.get ctx deep = ((L.ask deep ctx m.inner).1,
      m.record ctx deep (L.ask deep ctx m.inner).1 (L.ask deep ctx m.inner).2) := by
  unfold get
  rw [h]
  exact if_neg hcap

/-- A call writes its own context in its own table. -/
theorem find?_memo_record (m : MemoLlm L) (r q : Request) (c : Classification)
    (inner : L.State) :
    ((m.record r.2 r.1 c inner).memo q.1).find? q.2 =
      if q = r then some c else (m.memo q.1).find? q.2 := by
  obtain ⟨deep, ctx⟩ := r
  obtain ⟨tier, key⟩ := q
  by_cases hctx : key = ctx
  · subst hctx
    cases deep <;> cases tier <;> simp [record, memo]
  · cases deep <;> cases tier <;>
      simp [record, memo, hctx, AssocMap.find?_put_of_ne hctx]

end MemoLlm

theorem ask_memoLlm (L : LlmClient) (r : Request) (m : MemoLlm L) :
    (memoLlm L).ask r.1 r.2 m = m.get r.2 r.1 := by
  unfold LlmClient.ask
  cases r.1 <;> rfl

section Run

variable {L : LlmClient} {reply : Request → Classification} {s₀ : L.State} {cap : UInt64}
  {reqs : List Request} {m : MemoLlm L} {r : Request}

namespace Accounts

theorem fresh : Accounts L reply s₀ cap [] { inner := s₀, cap := cap } where
  budget := rfl
  inner := by rw [admitted_nil]; rfl
  calls := by rw [admitted_nil]; rfl
  counts := rfl
  memo deep ctx := by rw [admitted_nil]; cases deep <;> rfl
  haiku_in := by rw [admitted_nil]; rfl
  haiku_out := by rw [admitted_nil]; rfl
  sonnet_in := by rw [admitted_nil]; rfl
  sonnet_out := by rw [admitted_nil]; rfl

theorem find?_eq_none (a : Accounts L reply s₀ cap reqs m) (h : r ∉ admitted cap.toNat reqs) :
    (m.memo r.1).find? r.2 = none := (a.memo r.1 r.2).trans (if_neg h)

theorem cap_le_calls (a : Accounts L reply s₀ cap reqs m) :
    m.cap ≤ m.calls ↔ cap.toNat ≤ (admitted cap.toNat reqs).length := by
  rw [a.budget, UInt64.le_iff_toNat_le, a.calls]

/-- Where no call is made, nothing changes but the two other counters. -/
theorem of_no_call (a : Accounts L reply s₀ cap reqs m)
    (h : admitted cap.toNat (reqs ++ [r]) = admitted cap.toNat reqs) {hits capped : UInt64}
    (hcount : hits + capped = m.hits + m.capped + 1) :
    Accounts L reply s₀ cap (reqs ++ [r]) { m with hits := hits, capped := capped } where
  budget := a.budget
  inner := by rw [h]; exact a.inner
  calls := by rw [h]; exact a.calls
  counts := by
    have hlen : UInt64.ofNat (reqs ++ [r]).length = UInt64.ofNat reqs.length + 1 := by simp
    rw [hlen, ← a.counts, UInt64.add_assoc, hcount, UInt64.add_assoc, UInt64.add_assoc,
      UInt64.add_assoc]
  memo deep ctx := by rw [h]; exact a.memo deep ctx
  haiku_in := by rw [h]; exact a.haiku_in
  haiku_out := by rw [h]; exact a.haiku_out
  sonnet_in := by rw [h]; exact a.sonnet_in
  sonnet_out := by rw [h]; exact a.sonnet_out

/-- A call is the next one of the list. -/
theorem of_call (hreply : ∀ deep ctx s, (L.ask deep ctx s).1 = reply (deep, ctx))
    (a : Accounts L reply s₀ cap reqs m) (hnew : r ∉ admitted cap.toNat reqs)
    (hroom : (admitted cap.toNat reqs).length < cap.toNat) :
    Accounts L reply s₀ cap (reqs ++ [r])
      (m.record r.2 r.1 (L.ask r.1 r.2 m.inner).1 (L.ask r.1 r.2 m.inner).2) := by
  have hadm := admitted_append_of_new hnew hroom
  have hcalls : (m.calls + 1).toNat = (admitted cap.toNat reqs).length + 1 := by
    have hlt := cap.toNat_lt
    rw [UInt64.toNat_add, a.calls, UInt64.toNat_one]
    exact Nat.mod_eq_of_lt (by omega)
  rw [hreply]
  obtain ⟨deep, ctx⟩ := r
  exact {
    budget := a.budget
    inner := by rw [hadm, askAll_append, ← a.inner]; rfl
    calls := by rw [hadm, List.length_append]; exact hcalls
    counts := by
      have hlen : UInt64.ofNat (reqs ++ [(deep, ctx)]).length = UInt64.ofNat reqs.length + 1 := by
        simp
      rw [hlen, ← a.counts]
      show m.calls + 1 + m.hits + m.capped = m.calls + m.hits + m.capped + 1
      ac_rfl
    memo := fun tier key => by
      rw [hadm, MemoLlm.find?_memo_record m (deep, ctx) (tier, key), a.memo]
      by_cases hr : (tier, key) = (deep, ctx)
      · rw [if_pos hr, if_pos (by simp [hr]), hr]
      · rw [if_neg hr]
        simp [hr]
    haiku_in := by
      rw [hadm, tierTokens_append, ← a.haiku_in]
      cases deep <;> simp [MemoLlm.record]
    haiku_out := by
      rw [hadm, tierTokens_append, ← a.haiku_out]
      cases deep <;> simp [MemoLlm.record]
    sonnet_in := by
      rw [hadm, tierTokens_append, ← a.sonnet_in]
      cases deep <;> simp [MemoLlm.record]
    sonnet_out := by
      rw [hadm, tierTokens_append, ← a.sonnet_out]
      cases deep <;> simp [MemoLlm.record] }

/-- One request: what is answered, and what is kept. -/
theorem get (hreply : ∀ deep ctx s, (L.ask deep ctx s).1 = reply (deep, ctx))
    (a : Accounts L reply s₀ cap reqs m) (r : Request) :
    (m.get r.2 r.1).1 = memoReply reply cap.toNat reqs r ∧
      Accounts L reply s₀ cap (reqs ++ [r]) (m.get r.2 r.1).2 := by
  unfold memoReply
  by_cases hmem : r ∈ admitted cap.toNat reqs
  · rw [if_pos hmem, MemoLlm.get_of_hit ((a.memo r.1 r.2).trans (if_pos hmem))]
    refine ⟨rfl, a.of_no_call (admitted_append_of_mem hmem) ?_⟩
    ac_rfl
  · rw [if_neg hmem]
    by_cases hroom : (admitted cap.toNat reqs).length < cap.toNat
    · have hcap : ¬ m.cap ≤ m.calls := fun h => Nat.not_le_of_lt hroom (a.cap_le_calls.mp h)
      rw [if_pos hroom, MemoLlm.get_of_call (a.find?_eq_none hmem) hcap]
      exact ⟨hreply r.1 r.2 m.inner, a.of_call hreply hmem hroom⟩
    · have hfull := Nat.le_of_not_lt hroom
      rw [if_neg hroom,
        MemoLlm.get_of_capped (a.find?_eq_none hmem) (a.cap_le_calls.mpr hfull)]
      refine ⟨rfl, a.of_no_call (admitted_append_of_full hfull) ?_⟩
      ac_rfl

end Accounts

/-! ## 4. A whole run -/

/-- The replies in front are those of a shorter run. -/
theorem accounts_askAll (hreply : ∀ deep ctx s, (L.ask deep ctx s).1 = reply (deep, ctx))
    (s₀ : L.State) (cap : UInt64) (reqs : List Request) :
    Accounts L reply s₀ cap reqs
        ((memoLlm L).askAll reqs ({ inner := s₀, cap := cap } : MemoLlm L)).2 ∧
      ∀ i (h : i < reqs.length),
        ((memoLlm L).askAll reqs ({ inner := s₀, cap := cap } : MemoLlm L)).1[i]? =
          some (memoReply reply cap.toNat (reqs.take i) reqs[i]) := by
  induction reqs using List.reverseRecOn with
  | nil => exact ⟨Accounts.fresh, fun i h => absurd h (Nat.not_lt_zero i)⟩
  | append_singleton reqs r ih =>
    obtain ⟨hacc, hreplies⟩ := ih
    have hstep := hacc.get hreply r
    rw [askAll_append, ask_memoLlm]
    refine ⟨hstep.2, fun i h => ?_⟩
    have hlen := length_askAll (memoLlm L) reqs ({ inner := s₀, cap := cap } : MemoLlm L)
    rcases Nat.lt_or_ge i reqs.length with hi | hi
    · rw [List.getElem?_append_left (hlen ▸ hi), hreplies i hi, List.getElem_append_left hi,
        List.take_append_of_le_length (Nat.le_of_lt hi)]
    · -- the last request
      have hi' : i = reqs.length := by
        rw [List.length_append, List.length_singleton] at h
        omega
      subst hi'
      have hlast : (((memoLlm L).askAll reqs ({ inner := s₀, cap := cap } : MemoLlm L)).1 ++
          [memoReply reply cap.toNat reqs r])[reqs.length]? =
            some (memoReply reply cap.toNat reqs r) := by
        rw [← hlen]
        exact List.getElem?_concat_length
      rw [hstep.1, hlast]
      simp

/-- **The memo is transparent and keeps to its budget.** -/
theorem memo_llm_transparent (L : LlmClient) (reply : Request → Classification)
    (hreply : ∀ deep ctx s, (L.ask deep ctx s).1 = reply (deep, ctx)) (s₀ : L.State) (cap : UInt64)
    (reqs : List Request) :
    let run := (memoLlm L).askAll reqs ({ inner := s₀, cap := cap } : MemoLlm L)
    run.1.length = reqs.length ∧
      (∀ i (h : i < reqs.length),
        run.1[i]? = some (memoReply reply cap.toNat (reqs.take i) reqs[i])) ∧
      (admitted cap.toNat reqs).Nodup ∧ (admitted cap.toNat reqs).length ≤ cap.toNat ∧
      Accounts L reply s₀ cap reqs run.2 := by
  obtain ⟨hacc, hreplies⟩ := accounts_askAll hreply s₀ cap reqs
  exact ⟨length_askAll _ _ _, hreplies, nodup_admitted, length_admitted_le, hacc⟩

end Run

/-- One call is allowed: the first context is answered again, the second one is not. -/
theorem memo_llm_transparent_sample :
    let reply : Request → Classification := fun r =>
      { verdict := if r.1 then .Malicious else .Normal, input_tokens := 7 }
    let L : LlmClient :=
      { State := Unit
        classify := fun ctx s => (reply (false, ctx), s)
        deepAnalyze := fun ctx s => (reply (true, ctx), s) }
    let a : Request := (false, lit "a")
    let b : Request := (true, lit "a")
    let run := (memoLlm L).askAll [a, b, a] ({ inner := (), cap := 1 } : MemoLlm L)
    run.1.length = 3 ∧ run.1[1]? = some cappedReply ∧
      run.1[2]? = some (reply a).withoutTokens ∧ run.2.haiku_in = 7 := by
  intro reply L a b run
  have hreply : ∀ deep ctx s, (L.ask deep ctx s).1 = reply (deep, ctx) := by
    intro deep ctx s
    cases deep <;> rfl
  obtain ⟨hlen, hreplies, -, -, hacc⟩ := memo_llm_transparent L reply hreply () 1 [a, b, a]
  refine ⟨hlen, (hreplies 1 (by decide)).trans ?_, (hreplies 2 (by decide)).trans ?_,
    hacc.haiku_in.trans ?_⟩
  · decide
  · decide
  · decide

end PqcEdr.Analyzer
