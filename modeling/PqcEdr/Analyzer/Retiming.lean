/-
# The same events on two clocks

Two correlators see the same events, one event at a time, each on its own clock.  The only thing
either does with a time is to test whether it has expired; so where the tests agree, both raise the
same hits.

* `SameContent`: what `observe` reads of an event, the time apart.
* `observe_retimed`: one step keeps two correlators the same but for their times.
* `hits_retimed`: a whole run on two clocks that agree on every window raises the same hits.
-/
import PqcEdr.Analyzer.Chains

namespace PqcEdr.Analyzer

open Recency

/-! ## 1. What is compared -/

/-- What the correlator reads of an event, except when it happened. -/
structure SameContent (ev ev' : SecurityEvent) : Prop where
  type : ev.type = ev'.type
  comm : ev.commStr = ev'.commStr
  ancestors : ancestorSet ev = ancestorSet ev'
  path : ev.type ≠ PQSEC_EVT_TCP_CONNECT → ev.filePath = ev'.filePath
  access : ev.type = PQSEC_EVT_FILE_OPEN → ev.fileAccess = ev'.fileAccess
  connect : ev.type = PQSEC_EVT_TCP_CONNECT →
    ev.tcpDaddr = ev'.tcpDaddr ∧ ev.tcpDport = ev'.tcpDport

/-- The same reason, but for the seconds that it quotes. -/
inductive SameReason : Bytes → Bytes → Prop
  | refl (reason : Bytes) : SameReason reason reason
  | writeExec {w w' : StagedWrite} (h : w.writer = w'.writer) (filename : Bytes)
      (now now' : UInt64) :
      SameReason (writeExecReason w filename now) (writeExecReason w' filename now')
  | downloadExec {d d' : Lineage} (h : d.comm = d'.comm) (shared : UInt32) (now now' : UInt64) :
      SameReason (downloadExecReason d shared now) (downloadExecReason d' shared now')

structure SameHit (ch ch' : CorrelationHit) : Prop where
  hit : ch.hit = ch'.hit
  severity : ch.severity = ch'.severity
  rule : ch.rule = ch'.rule
  reason : SameReason ch.reason ch'.reason

theorem SameHit.refl (ch : CorrelationHit) : SameHit ch ch := ⟨rfl, rfl, rfl, .refl _⟩

theorem sameHit_of_reasons (hit : Bool) (severity : Severity) (rule : String) {x y : Bytes}
    (h : SameReason x y) : SameHit ⟨hit, severity, rule, x⟩ ⟨hit, severity, rule, y⟩ :=
  ⟨rfl, rfl, rfl, h⟩

/-- The hits of a stream of events, one an event. -/
def Correlator.hitsOf (c : Correlator) : List SecurityEvent → Option (List CorrelationHit)
  | [] => some []
  | ev :: log =>
    match c.observe ev with
    | none => none
    | some (ch, c) => (c.hitsOf log).map (ch :: ·)

section

variable (R : UInt64 → UInt64 → Prop)

/-- The same lineage but for its time, and `R` relates the two times. -/
structure Lineage.Retimed (d d' : Lineage) : Prop where
  time : R d.ts_ns d'.ts_ns
  anc : d.anc = d'.anc
  comm : d.comm = d'.comm

structure StagedWrite.Retimed (w w' : StagedWrite) : Prop where
  time : R w.ts_ns w'.ts_ns
  writer : w.writer = w'.writer

/-- The same state but for the times in it. -/
structure Correlator.Retimed (c c' : Correlator) : Prop where
  window : c.window_ns = c'.window_ns
  threshold : c.beacon_threshold = c'.beacon_threshold
  downloads : List.Forall₂ (Lineage.Retimed R) c.downloads c'.downloads
  staged : AssocMap.Alike (StagedWrite.Retimed R) c.staged c'.staged
  conns : AssocMap.Alike (List.Forall₂ R) c.conns c'.conns

/-- The two clocks read `now` and `now'`, and no related pair of times has expired on one of them
only. -/
structure Agree (W now now' : UInt64) : Prop where
  related : R now now'
  test : ∀ t t', R t t' → expired W now t = expired W now' t'

end

variable {R : UInt64 → UInt64 → Prop} {c c' : Correlator} {ev ev' : SecurityEvent}

theorem Correlator.Retimed.init (W : UInt64) (N : ℕ) :
    Correlator.Retimed R (Correlator.init W N) (Correlator.init W N) :=
  ⟨rfl, rfl, List.Forall₂.nil, AssocMap.Alike.empty, AssocMap.Alike.empty⟩

theorem Correlator.Retimed.mono {S : UInt64 → UInt64 → Prop} (hRS : ∀ t t', R t t' → S t t')
    (h : Correlator.Retimed R c c') : Correlator.Retimed S c c' where
  window := h.window
  threshold := h.threshold
  downloads := h.downloads.imp fun _ _ hd => ⟨hRS _ _ hd.time, hd.anc, hd.comm⟩
  staged := h.staged.mono fun _ _ hw => ⟨hRS _ _ hw.time, hw.writer⟩
  conns := h.conns.mono fun _ _ hl => hl.imp hRS

/-! ## 2. One step -/

section Step

variable (h : Correlator.Retimed R c c') (hagree : Agree R c.window_ns ev.ts_ns ev'.ts_ns)
  (hsame : SameContent ev ev')

include h hagree hsame

theorem observeFile_retimed (htype : ev.type = PQSEC_EVT_FILE_OPEN) :
    Correlator.Retimed R (c.observeFile ev).2 (c'.observeFile ev').2 := by
  have hpath : ev.filePath = ev'.filePath := hsame.path (by rw [htype]; decide)
  have hwrite : isStagingWrite ev = isStagingWrite ev' := by
    rw [isStagingWrite, isStagingWrite, hpath, hsame.access htype]
  have hput : AssocMap.Alike (StagedWrite.Retimed R) (c.staged.put ev.filePath (stagedWriteOf ev))
      (c'.staged.put ev.filePath (stagedWriteOf ev')) :=
    h.staged.put ev.filePath ⟨hagree.related, hsame.comm⟩
  have hsweep : AssocMap.Alike (StagedWrite.Retimed R)
      ((c.staged.put ev.filePath (stagedWriteOf ev)).eraseIf
        fun _ w => expired c.window_ns ev.ts_ns w.ts_ns)
      ((c'.staged.put ev.filePath (stagedWriteOf ev')).eraseIf
        fun _ w => expired c.window_ns ev'.ts_ns w.ts_ns) :=
    hput.eraseIf fun _ _ _ hw => hagree.test _ _ hw.time
  unfold Correlator.observeFile
  rw [← hwrite, ← hpath, ← h.window]
  by_cases hst : isStagingWrite ev = true
  · rw [if_neg (by simp [hst]), if_neg (by simp [hst])]
    dsimp only
    rw [← hput.size_eq]
    split
    · exact ⟨rfl, h.threshold, h.downloads, hsweep, h.conns⟩
    · exact ⟨rfl, h.threshold, h.downloads, hput, h.conns⟩
  · rw [if_pos (by simp [hst]), if_pos (by simp [hst])]
    exact h

omit hsame in
theorem liveDownloads_retimed :
    List.Forall₂ (Lineage.Retimed R) (c.liveDownloads ev) (c'.liveDownloads ev') := by
  refine forall₂_popWhile ?_ h.downloads
  intro d d' hd
  rw [← h.window]
  exact hagree.test _ _ hd.time

omit hsame in
theorem liveWrite_retimed (hpath : ev.execveFilename = ev'.execveFilename) :
    Option.Rel (StagedWrite.Retimed R) (c.liveWrite ev) (c'.liveWrite ev') := by
  have hfind := h.staged.find? ev.execveFilename
  unfold Correlator.liveWrite
  rw [← hpath, ← h.window]
  generalize c.staged.find? ev.execveFilename = w at hfind ⊢
  generalize c'.staged.find? ev.execveFilename = w' at hfind ⊢
  cases hfind with
  | none => exact Option.Rel.none
  | some hw =>
    rw [Option.filter_some, Option.filter_some, ← hagree.test _ _ hw.time]
    split
    · exact Option.Rel.some hw
    · exact Option.Rel.none

omit h hagree hsame in
/-- The loop over `downloads_` looks at the ancestors only. -/
theorem matchLineage_retimed (now now' : UInt64) (mine : OrdSet UInt32) {ds ds' : List Lineage}
    (h : List.Forall₂ (Lineage.Retimed R) ds ds') :
    SameHit (Correlator.matchLineage now mine ds) (Correlator.matchLineage now' mine ds') := by
  induction h with
  | nil => exact SameHit.refl _
  | cons hd _ ih =>
    rw [Correlator.matchLineage, Correlator.matchLineage, hd.anc]
    split
    · exact ih
    · exact sameHit_of_reasons _ _ _ (.downloadExec hd.comm _ _ _)

theorem observeExecve_retimed (htype : ev.type = PQSEC_EVT_EXECVE) :
    SameHit (c.observeExecve ev).1 (c'.observeExecve ev').1 ∧
      Correlator.Retimed R (c.observeExecve ev).2 (c'.observeExecve ev').2 := by
  have hpath : ev.execveFilename = ev'.execveFilename := hsame.path (by rw [htype]; decide)
  have hdl : isDownloader ev = isDownloader ev' := by rw [isDownloader, isDownloader, hpath]
  have hpop := liveDownloads_retimed h hagree
  refine ⟨?_, ?_⟩
  · rw [observeExecve_hit, observeExecve_hit, ← hdl, ← hpath, ← hsame.ancestors]
    split
    · exact SameHit.refl _
    · have hwrite := liveWrite_retimed h hagree hpath
      generalize c.liveWrite ev = w at hwrite ⊢
      generalize c'.liveWrite ev' = w' at hwrite ⊢
      cases hwrite with
      | none => exact matchLineage_retimed _ _ _ hpop
      | some hw => exact sameHit_of_reasons _ _ _ (.writeExec hw.writer _ _ _)
  · rw [observeExecve_state, observeExecve_state]
    refine ⟨h.window, h.threshold, ?_, h.staged, h.conns⟩
    dsimp only
    rw [← hdl]
    split
    · exact forall₂_pushCapped _ hpop ⟨hagree.related, hsame.ancestors, congrArg basenameOf hpath⟩
    · exact hpop

omit hsame in
theorem touchHistory_retimed (hkey : connKeyOf ev = connKeyOf ev') :
    List.Forall₂ R (c.touchHistory ev) (c'.touchHistory ev') := by
  have hfind := h.conns.find? (connKeyOf ev)
  have hhist : List.Forall₂ R ((c.conns.find? (connKeyOf ev)).getD [])
      ((c'.conns.find? (connKeyOf ev)).getD []) := by
    generalize c.conns.find? (connKeyOf ev) = hist at hfind ⊢
    generalize c'.conns.find? (connKeyOf ev) = hist' at hfind ⊢
    cases hfind with
    | none => exact List.Forall₂.nil
    | some hl => exact hl
  unfold Correlator.touchHistory
  rw [← hkey, ← h.window]
  exact forall₂_pushCapped _ (forall₂_popWhile hagree.test hhist) hagree.related

omit h hsame in
theorem sweepsOut_retimed {hist hist' : List UInt64} (hl : List.Forall₂ R hist hist') :
    Correlator.sweepsOut c.window_ns ev.ts_ns hist =
      Correlator.sweepsOut c.window_ns ev'.ts_ns hist' := by
  have hlast := forall₂_getLast? hl
  unfold Correlator.sweepsOut
  generalize hist.getLast? = t at hlast ⊢
  generalize hist'.getLast? = t' at hlast ⊢
  cases hlast with
  | none => rfl
  | some ht => exact hagree.test _ _ ht

omit hsame in
theorem touchConns_retimed (hkey : connKeyOf ev = connKeyOf ev') :
    AssocMap.Alike (List.Forall₂ R) (c.touchConns ev) (c'.touchConns ev') := by
  have hput := h.conns.put (connKeyOf ev) (touchHistory_retimed h hagree hkey)
  unfold Correlator.touchConns
  rw [← hkey, ← h.window]
  dsimp only
  rw [← hput.size_eq]
  split
  · exact hput.eraseIf fun _ _ _ hl => sweepsOut_retimed hagree hl
  · exact hput

theorem observeConnect_retimed (htype : ev.type = PQSEC_EVT_TCP_CONNECT) :
    Option.Rel (fun x x' => SameHit x.1 x'.1 ∧ Correlator.Retimed R x.2 x'.2)
      (c.observeConnect ev) (c'.observeConnect ev') := by
  obtain ⟨haddr, hport⟩ := hsame.connect htype
  have hkey : connKeyOf ev = connKeyOf ev' := by
    rw [connKeyOf, connKeyOf, hsame.comm, haddr, hport]
  have hconns := touchConns_retimed h hagree hkey
  have hfind := hconns.find? (connKeyOf ev)
  unfold Correlator.observeConnect
  rw [← haddr, ← hkey]
  split
  · exact Option.Rel.some ⟨SameHit.refl _, h⟩
  · dsimp only
    generalize (c.touchConns ev).find? (connKeyOf ev) = hist at hfind ⊢
    generalize (c'.touchConns ev').find? (connKeyOf ev) = hist' at hfind ⊢
    cases hfind with
    | none => exact Option.Rel.none
    | some hl =>
      dsimp only
      rw [hl.length_eq, ← h.threshold]
      split
      · exact Option.Rel.some ⟨SameHit.refl _, h.window, rfl, h.downloads, h.staged, hconns⟩
      · rw [← h.window]
        exact Option.Rel.some ⟨SameHit.refl _, rfl, rfl, h.downloads, h.staged, hconns⟩

/-- One event on both clocks: the same decision, and states that still differ in times only. -/
theorem observe_retimed : Option.Rel (fun x x' => SameHit x.1 x'.1 ∧ Correlator.Retimed R x.2 x'.2)
    (c.observe ev) (c'.observe ev') := by
  unfold Correlator.observe
  rw [← hsame.type]
  split
  · rename_i htype
    exact Option.Rel.some (observeExecve_retimed h hagree hsame htype)
  · split
    · rename_i htype
      exact observeConnect_retimed h hagree hsame htype
    · split
      · rename_i htype
        refine Option.Rel.some ⟨?_, observeFile_retimed h hagree hsame htype⟩
        rw [observeFile_hit, observeFile_hit]
        exact SameHit.refl _
      · exact Option.Rel.some ⟨SameHit.refl _, h⟩

end Step

/-! ## 3. A whole run -/

/-- No event from here on finds the one time expired and the other not. -/
def Inseparable (W : UInt64) (later : List (UInt64 × UInt64)) (t t' : UInt64) : Prop :=
  ∀ now ∈ later, expired W now.1 t = expired W now.2 t'

/-- The two clocks agree on every window: whatever the pair of events, in the order they came, the
earlier has expired at the later on both or on neither. -/
def SameWindows (W : UInt64) (ts ts' : List UInt64) : Prop :=
  ∀ (i j : ℕ) (t t' now now' : UInt64), i ≤ j → ts[i]? = some t → ts'[i]? = some t' →
    ts[j]? = some now → ts'[j]? = some now' → expired W now t = expired W now' t'

theorem SameWindows.head {W t t' : UInt64} {ts ts' : List UInt64}
    (h : SameWindows W (t :: ts) (t' :: ts')) :
    Inseparable W ((t :: ts).zip (t' :: ts')) t t' := by
  intro now hnow
  obtain ⟨j, hj⟩ := List.mem_iff_getElem?.mp hnow
  obtain ⟨h₁, h₂⟩ := List.getElem?_zip_eq_some.mp hj
  exact h 0 j t t' now.1 now.2 (Nat.zero_le j) rfl rfl h₁ h₂

theorem SameWindows.tail {W t t' : UInt64} {ts ts' : List UInt64}
    (h : SameWindows W (t :: ts) (t' :: ts')) : SameWindows W ts ts' := by
  intro i j s s' now now' hij hs hs' hnow hnow'
  exact h (i + 1) (j + 1) s s' now now' (Nat.succ_le_succ hij) hs hs' hnow hnow'

/-- **A run on two clocks.**  Where the clocks agree on every window, two correlators that differ in
times only raise the same hits. -/
theorem hits_retimed {W : UInt64} {log log' : List SecurityEvent}
    (hsame : List.Forall₂ SameContent log log')
    (hwin : SameWindows W (log.map SecurityEvent.ts_ns) (log'.map SecurityEvent.ts_ns))
    (hW : c.window_ns = W) (h : Correlator.Retimed (Inseparable W
      ((log.map SecurityEvent.ts_ns).zip (log'.map SecurityEvent.ts_ns))) c c') :
    Option.Rel (List.Forall₂ SameHit) (c.hitsOf log) (c'.hitsOf log') := by
  induction hsame generalizing c c' with
  | nil => exact Option.Rel.some List.Forall₂.nil
  | @cons ev ev' log log' hev _ ih =>
    have hagree : Agree (Inseparable W (((ev :: log).map SecurityEvent.ts_ns).zip
        ((ev' :: log').map SecurityEvent.ts_ns))) c.window_ns ev.ts_ns ev'.ts_ns := by
      refine ⟨hwin.head, fun t t' ht => ?_⟩
      rw [hW]
      exact ht (ev.ts_ns, ev'.ts_ns) List.mem_cons_self
    have hstep := observe_retimed h hagree hev
    have hparam : ∀ ch c₁, c.observe ev = some (ch, c₁) → c₁.window_ns = W := by
      intro ch c₁ hobs
      rw [(observe_steps hobs).window, hW]
    unfold Correlator.hitsOf
    generalize c.observe ev = x at hstep hparam ⊢
    generalize c'.observe ev' = x' at hstep ⊢
    cases hstep with
    | none => exact Option.Rel.none
    | @some y y' hy =>
      have hrest := ih hwin.tail (hparam y.1 y.2 rfl)
        (hy.2.mono fun _ _ ht now hnow => ht now (List.mem_cons_of_mem _ hnow))
      dsimp only
      generalize y.2.hitsOf log = z at hrest ⊢
      generalize y'.2.hitsOf log' = z' at hrest ⊢
      cases hrest with
      | none => exact Option.Rel.none
      | some hz => exact Option.Rel.some (List.Forall₂.cons hy.1 hz)

end PqcEdr.Analyzer
