/-
# A process over a transport

A party of a protocol is a program over frames (`Proc`).  A transport is a pair of methods on a
state of its own, one that sends a frame and one that receives one, and either may throw.  Run
over it, the program calls them where it sends and receives, and what it notes is nobody's
business.  This file says that such a call is a run of the program:

`via_eq_ok`: the call returns exactly when the transport carries a trace that ends there.

So what is proved about all runs of a program, in any network, holds of its calls.
-/
import PqcEdr.Lib.Method
import PqcEdr.Lib.Process

namespace Proc

open Method

variable {F E X σ α β : Type}

/-- Two methods on one state. -/
structure Transport (F X σ : Type) where
  send : F → Method X σ Unit
  recv : Method X σ F

/-- The program, with these methods for its frames. -/
def via (T : Transport F X σ) : Proc F E X α → Method X σ α
  | ret a => pure a
  | throw x => MonadExcept.throw x
  | send f p => do
    T.send f
    via T p
  | recv next => do
    let f ← T.recv
    via T (next f)
  | note _ p => via T p

/-- The transport carries this trace, from one state to another. -/
inductive Transport.Carries (T : Transport F X σ) : List (Act F E) → σ → σ → Prop
  | nil (s) : Carries T [] s s
  | sent {f t s s₁ s'} : (T.send f).call s = (.ok (), s₁) → Carries T t s₁ s' →
      Carries T (.sent f :: t) s s'
  | received {f t s s₁ s'} : T.recv.call s = (.ok f, s₁) → Carries T t s₁ s' →
      Carries T (.received f :: t) s s'
  | noted {e t s s'} : Carries T t s s' → Carries T (.noted e :: t) s s'

/-! ## 1. One step -/

variable {T : Transport F X σ}

theorem call_via_send (f : F) (p : Proc F E X α) (s : σ) : (via T (send f p)).call s =
    match (T.send f).call s with
    | (.ok (), s') => (via T p).call s'
    | (.error x, s') => (.error x, s') := by
  rw [via, call_bind]
  rcases (T.send f).call s with ⟨x | ⟨⟩, s'⟩ <;> rfl

theorem call_via_recv (next : F → Proc F E X α) (s : σ) : (via T (recv next)).call s =
    match T.recv.call s with
    | (.ok f, s') => (via T (next f)).call s'
    | (.error x, s') => (.error x, s') := by
  rw [via, call_bind]
  rcases T.recv.call s with ⟨x | f, s'⟩ <;> rfl

/-! ## 2. A call is a run -/

/-- A call that returned, as a run that the transport carried. -/
theorem exists_run_of_call {p : Proc F E X α} {a : α} {s s' : σ}
    (h : (via T p).call s = (.ok a, s')) : ∃ t, Run p t (ret a) ∧ T.Carries t s s' := by
  induction p generalizing s with
  | ret b =>
    obtain ⟨hb, rfl⟩ := Prod.mk.inj h
    rw [Except.ok.inj hb]
    exact ⟨[], .refl _, .nil s⟩
  | throw x => cases h
  | send f p ih =>
    rw [call_via_send] at h
    rcases hsend : (T.send f).call s with ⟨x | ⟨⟩, s₁⟩ <;> rw [hsend] at h
    · cases h
    · obtain ⟨t, hrun, hcarries⟩ := ih h
      exact ⟨_, .send hrun, .sent hsend hcarries⟩
  | recv next ih =>
    rw [call_via_recv] at h
    rcases hrecv : T.recv.call s with ⟨x | f, s₁⟩ <;> rw [hrecv] at h
    · cases h
    · obtain ⟨t, hrun, hcarries⟩ := ih f h
      exact ⟨_, .recv hrun, .received hrecv hcarries⟩
  | note e p ih =>
    obtain ⟨t, hrun, hcarries⟩ := ih h
    exact ⟨_, .note hrun, .noted hcarries⟩

/-- Up to any point of a run that the transport carried, the call does what the run did. -/
theorem call_of_run {p q : Proc F E X α} {t : List (Act F E)} {s s' : σ} (hrun : Run p t q)
    (hcarries : T.Carries t s s') : (via T p).call s = (via T q).call s' := by
  induction hrun generalizing s with
  | refl => cases hcarries; rfl
  | send hrun ih =>
    cases hcarries with
    | sent hsend hcarries => rw [call_via_send, hsend, ← ih hcarries]
  | recv hrun ih =>
    cases hcarries with
    | received hrecv hcarries => rw [call_via_recv, hrecv, ← ih hcarries]
  | note hrun ih =>
    cases hcarries with
    | noted hcarries => exact ih hcarries

/-- **A call returns exactly what its runs return.** -/
theorem via_eq_ok {p : Proc F E X α} {a : α} {s s' : σ} :
    (via T p).call s = (.ok a, s') ↔ ∃ t, Run p t (ret a) ∧ T.Carries t s s' := by
  constructor
  · exact exists_run_of_call
  · rintro ⟨t, hrun, hcarries⟩
    rw [call_of_run hrun hcarries]
    rfl

/-! ## 3. What a program sends -/

/-- Whatever it receives, the program sends only such frames. -/
def AllSent (P : F → Prop) : Proc F E X α → Prop
  | ret _ => True
  | throw _ => True
  | send f p => P f ∧ AllSent P p
  | recv next => ∀ f, AllSent P (next f)
  | note _ p => AllSent P p

variable {P : F → Prop}

theorem AllSent.of_run {p q : Proc F E X α} {t : List (Act F E)} (h : AllSent P p)
    (hrun : Run p t q) : ∀ f, .sent f ∈ t → P f := by
  induction hrun with
  | refl => exact fun f hf => absurd hf List.not_mem_nil
  | send _ ih =>
    intro f hf
    rcases List.mem_cons.mp hf with heq | hf
    · rw [Act.sent.inj heq]
      exact h.1
    · exact ih h.2 f hf
  | recv _ ih =>
    intro f hf
    rcases List.mem_cons.mp hf with heq | hf
    · cases heq
    · exact ih (h _) f hf
  | note _ ih =>
    intro f hf
    rcases List.mem_cons.mp hf with heq | hf
    · cases heq
    · exact ih h f hf

theorem allSent_bind {p : Proc F E X β} {k : β → Proc F E X α} (h : AllSent P p)
    (hk : ∀ b, AllSent P (k b)) : AllSent P (p >>= k) := by
  induction p with
  | ret b => exact hk b
  | throw x => trivial
  | send f p ih => exact ⟨h.1, ih h.2⟩
  | recv next ih => exact fun f => ih f (h f)
  | note e p ih => exact ih h

theorem allSent_lift {x : Except X β} {k : β → Proc F E X α}
    (hk : ∀ b, x = .ok b → AllSent P (k b)) : AllSent P (lift x >>= k) := by
  cases x with
  | ok b => exact hk b rfl
  | error e => trivial

theorem allSent_ite {b : Bool} {x : X} {p : Proc F E X α} (h : AllSent P p) :
    AllSent P (if b then p else throw x) := by
  cases b
  · trivial
  · exact h

end Proc
