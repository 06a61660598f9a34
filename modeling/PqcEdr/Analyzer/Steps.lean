/-
# What one call of `observe` can do

The correlator keeps three containers; each answers for a list that can be read off the event
log alone: the downloader executions, the writes to each staging path, the public connects of
each key.  `observe_steps` says once what a call does to each container, in the vocabulary of
`Recency.Evolves`, and `observeAll_induction` packages the induction over a stream of events.
Every invariant of the correlator is derived from these two.
-/
import PqcEdr.Analyzer.Correlator

namespace PqcEdr.Analyzer

open Recency

/-! ## 1. The lists the containers answer for -/

/-- An event that `observe_execve` records in `downloads_`. -/
def isDownload (ev : SecurityEvent) : Bool := ev.type = PQSEC_EVT_EXECVE && isDownloader ev

/-- An event that `observe_file` records under the path `p`. -/
def isWriteTo (p : Bytes) (ev : SecurityEvent) : Bool :=
  ev.type = PQSEC_EVT_FILE_OPEN && isStagingWrite ev && ev.filePath = p

/-- A connect that `observe_connect` counts under the key `k`. -/
def isConnectTo (k : ConnKey) (ev : SecurityEvent) : Bool :=
  ev.type = PQSEC_EVT_TCP_CONNECT && !isPrivateIpv4 ev.tcpDaddr && connKeyOf ev = k

def downloadsOf (log : List SecurityEvent) : List Lineage := (log.filter isDownload).map lineageOf

def writesOf (p : Bytes) (log : List SecurityEvent) : List StagedWrite :=
  (log.filter (isWriteTo p)).map stagedWriteOf

def connectsOf (k : ConnKey) (log : List SecurityEvent) : List UInt64 :=
  (log.filter (isConnectTo k)).map SecurityEvent.ts_ns

/-- What one event adds to such a list. -/
def added {β : Type} (p : SecurityEvent → Bool) (f : SecurityEvent → β) (ev : SecurityEvent) :
    Option β := if p ev then some (f ev) else none

theorem map_filter_append {β : Type} (p : SecurityEvent → Bool) (f : SecurityEvent → β)
    (log : List SecurityEvent) (ev : SecurityEvent) :
    ((log ++ [ev]).filter p).map f = (log.filter p).map f ++ (added p f ev).toList := by
  unfold added
  split <;> simp [*]

theorem isDownload_eq_false {ev : SecurityEvent} (h : ev.type ≠ PQSEC_EVT_EXECVE) :
    isDownload ev = false := by
  rw [isDownload, decide_eq_false h, Bool.false_and]

theorem isWriteTo_eq_false {ev : SecurityEvent} (h : ev.type ≠ PQSEC_EVT_FILE_OPEN) (p : Bytes) :
    isWriteTo p ev = false := by
  rw [isWriteTo, decide_eq_false h, Bool.false_and, Bool.false_and]

theorem isConnectTo_eq_false {ev : SecurityEvent} (h : ev.type ≠ PQSEC_EVT_TCP_CONNECT)
    (k : ConnKey) : isConnectTo k ev = false := by
  rw [isConnectTo, decide_eq_false h, Bool.false_and, Bool.false_and]

/-- An event that a list does not count leaves its container alone. -/
theorem evolves_added_of_not {α : Type} {cap : ℕ} {gone : α → Bool} {q : List α}
    {p : SecurityEvent → Bool} {f : SecurityEvent → α} {ev : SecurityEvent} (h : p ev = false) :
    Evolves cap gone q (added p f ev) q := by
  rw [added, h]
  exact Evolves.refl

/-! ## 2. What a call does to the three containers -/

/-- The change from `c` to `c'` while `ev` is observed. -/
structure Steps (c : Correlator) (ev : SecurityEvent) (c' : Correlator) : Prop where
  window : c'.window_ns = c.window_ns
  threshold : c'.beacon_threshold = c.beacon_threshold
  downloads : Evolves kMaxDownloads (fun d => expired c.window_ns ev.ts_ns d.ts_ns) c.downloads
    (added isDownload lineageOf ev) c'.downloads
  staged : ∀ p, Evolves 1 (fun w => expired c.window_ns ev.ts_ns w.ts_ns)
    (c.staged.find? p).toList (added (isWriteTo p) stagedWriteOf ev) (c'.staged.find? p).toList
  conns : ∀ k, Evolves kMaxHistPerKey (fun t => expired c.window_ns ev.ts_ns t)
    ((c.conns.find? k).getD []) (added (isConnectTo k) SecurityEvent.ts_ns ev)
    ((c'.conns.find? k).getD [])

theorem Steps.refl {c : Correlator} {ev : SecurityEvent} (hd : isDownload ev = false)
    (hw : ∀ p, isWriteTo p ev = false) (hk : ∀ k, isConnectTo k ev = false) : Steps c ev c where
  window := rfl
  threshold := rfl
  downloads := evolves_added_of_not hd
  staged p := evolves_added_of_not (hw p)
  conns k := evolves_added_of_not (hk k)

/-- Assigning a map entry that holds at most one value is a push on a queue of cap 1. -/
theorem toList_put_eq_pushCapped {κ ν : Type} [DecidableEq κ] (m : AssocMap κ ν) (k : κ) (v : ν) :
    ((m.put k v).find? k).toList = pushCapped 1 (m.find? k).toList v := by
  cases h : m.find? k <;> simp [pushCapped]

/-- An entry that answers for the queue `r` makes of it may be erased when what the queue ends
with has expired. -/
theorem evolves_eraseIf {κ ν α : Type} [DecidableEq κ] {cap : ℕ} {gone : α → Bool} {q : List α}
    {x? : Option α} {m : AssocMap κ ν} {p : κ → ν → Bool} {k : κ} {r : Option ν → List α}
    (h : Evolves cap gone q x? (r (m.find? k))) (hnone : r none = [])
    (hgone : ∀ v, p k v = true → ∀ y, (r (some v)).getLast? = some y → gone y = true) :
    Evolves cap gone q x? (r ((m.eraseIf p).find? k)) := by
  cases hf : m.find? k with
  | none => rwa [AssocMap.find?_eraseIf_of_none hf, ← hf]
  | some v =>
    cases hx : p k v with
    | false => rwa [AssocMap.find?_eraseIf_of_keep hf hx, ← hf]
    | true =>
      rw [AssocMap.find?_eraseIf_of_erase hf hx, hnone]
      rw [hf] at h
      exact Evolves.clear h (hgone v hx)

/-- A write by itself is never reported. -/
theorem observeFile_hit (c : Correlator) (ev : SecurityEvent) : (c.observeFile ev).1 = {} := by
  unfold Correlator.observeFile
  split <;> rfl

theorem observeFile_steps (c : Correlator) {ev : SecurityEvent}
    (ht : ev.type = PQSEC_EVT_FILE_OPEN) : Steps c ev (c.observeFile ev).2 := by
  have hd : isDownload ev = false := isDownload_eq_false (by rw [ht]; decide)
  have hk : ∀ k, isConnectTo k ev = false := isConnectTo_eq_false (by rw [ht]; decide)
  unfold Correlator.observeFile
  split
  · rename_i hnot
    have hw : ∀ p, isWriteTo p ev = false := by
      intro p
      simp_all [isWriteTo]
    exact Steps.refl hd hw hk
  · rename_i hst
    have hput : ∀ p, Evolves 1 (fun w => expired c.window_ns ev.ts_ns w.ts_ns)
        (c.staged.find? p).toList (added (isWriteTo p) stagedWriteOf ev)
        ((c.staged.put ev.filePath (stagedWriteOf ev)).find? p).toList := by
      intro p
      by_cases hp : ev.filePath = p
      · subst hp
        have : added (isWriteTo ev.filePath) stagedWriteOf ev = some (stagedWriteOf ev) := by
          simp_all [added, isWriteTo]
        rw [this, toList_put_eq_pushCapped]
        exact Evolves.push _ Evolves.refl
      · rw [AssocMap.find?_put_of_ne (Ne.symm hp)]
        exact evolves_added_of_not (by simp [isWriteTo, hp])
    refine ⟨rfl, rfl, evolves_added_of_not hd, ?_, ?_⟩
    · intro p
      dsimp only
      split
      · refine evolves_eraseIf (hput p) rfl ?_
        intro w hw y hy
        rw [Option.toList_some, List.getLast?_singleton] at hy
        rwa [← Option.some.inj hy]
      · exact hput p
    · intro k
      exact evolves_added_of_not (hk k)

/-- An execution changes `downloads_` only: the front expires, and a downloader is pushed. -/
theorem observeExecve_state (c : Correlator) (ev : SecurityEvent) :
    (c.observeExecve ev).2 = { c with
      downloads :=
        if isDownloader ev then
          pushCapped kMaxDownloads
            (popWhile (fun d => expired c.window_ns ev.ts_ns d.ts_ns) c.downloads) (lineageOf ev)
        else popWhile (fun d => expired c.window_ns ev.ts_ns d.ts_ns) c.downloads } := by
  unfold Correlator.observeExecve
  dsimp only
  split
  · rfl
  · split
    · rfl
    · split
      · split <;> rfl
      · rfl

theorem observeExecve_steps (c : Correlator) {ev : SecurityEvent}
    (ht : ev.type = PQSEC_EVT_EXECVE) : Steps c ev (c.observeExecve ev).2 := by
  have hw : ∀ p, isWriteTo p ev = false := isWriteTo_eq_false (by rw [ht]; decide)
  have hk : ∀ k, isConnectTo k ev = false := isConnectTo_eq_false (by rw [ht]; decide)
  have hpop : Evolves kMaxDownloads (fun d => expired c.window_ns ev.ts_ns d.ts_ns) c.downloads none
      (popWhile (fun d => expired c.window_ns ev.ts_ns d.ts_ns) c.downloads) :=
    Evolves.expire Evolves.refl
  by_cases hdl : isDownloader ev = true
  · have hadd : added isDownload lineageOf ev = some (lineageOf ev) := by
      simp [added, isDownload, ht, hdl]
    rw [observeExecve_state, if_pos hdl]
    exact ⟨rfl, rfl, hadd ▸ Evolves.push _ hpop, fun p => evolves_added_of_not (hw p),
      fun k => evolves_added_of_not (hk k)⟩
  · have hadd : added isDownload lineageOf ev = none := by simp [added, isDownload, hdl]
    rw [observeExecve_state, if_neg hdl]
    exact ⟨rfl, rfl, hadd ▸ hpop, fun p => evolves_added_of_not (hw p),
      fun k => evolves_added_of_not (hk k)⟩

/-- The history of a key after a public connect, before the sweep. -/
theorem touchHistory_evolves (c : Correlator) {ev : SecurityEvent}
    (ht : ev.type = PQSEC_EVT_TCP_CONNECT) (hpub : isPrivateIpv4 ev.tcpDaddr = false) (k : ConnKey) :
    Evolves kMaxHistPerKey (fun t => expired c.window_ns ev.ts_ns t) ((c.conns.find? k).getD [])
      (added (isConnectTo k) SecurityEvent.ts_ns ev)
      (((c.conns.put (connKeyOf ev) (c.touchHistory ev)).find? k).getD []) := by
  by_cases hk : connKeyOf ev = k
  · subst hk
    have hadd : added (isConnectTo (connKeyOf ev)) SecurityEvent.ts_ns ev = some ev.ts_ns := by
      simp [added, isConnectTo, ht, hpub]
    rw [hadd, AssocMap.find?_put_self, Option.getD_some]
    exact Evolves.push _ (Evolves.expire Evolves.refl)
  · rw [AssocMap.find?_put_of_ne (Ne.symm hk)]
    exact evolves_added_of_not (by simp [isConnectTo, hk])

theorem touchConns_evolves (c : Correlator) {ev : SecurityEvent}
    (ht : ev.type = PQSEC_EVT_TCP_CONNECT) (hpub : isPrivateIpv4 ev.tcpDaddr = false) (k : ConnKey) :
    Evolves kMaxHistPerKey (fun t => expired c.window_ns ev.ts_ns t) ((c.conns.find? k).getD [])
      (added (isConnectTo k) SecurityEvent.ts_ns ev) (((c.touchConns ev).find? k).getD []) := by
  have h := touchHistory_evolves c ht hpub k
  unfold Correlator.touchConns
  dsimp only
  split
  · refine evolves_eraseIf (r := fun hist => hist.getD []) h rfl ?_
    intro hist hx y hy
    rw [Option.getD_some] at hy
    simpa [Correlator.sweepsOut, hy] using hx
  · exact h

/-- What a defined call of `observe_connect` on a public address returns. -/
theorem observeConnect_eq_some {c c' : Correlator} {ev : SecurityEvent} {hit : CorrelationHit}
    (hpub : isPrivateIpv4 ev.tcpDaddr = false) (h : c.observeConnect ev = some (hit, c')) :
    ∃ hist, (c.touchConns ev).find? (connKeyOf ev) = some hist ∧
      c' = { c with conns := c.touchConns ev } ∧
      hit = if hist.length < c.beacon_threshold then {}
        else ⟨true, .High, "beacon", beaconReason (connKeyOf ev) c.window_ns hist.length⟩ := by
  unfold Correlator.observeConnect at h
  rw [if_neg (by simp [hpub])] at h
  dsimp only at h
  split at h
  · cases h
  · rename_i hist hfind
    refine ⟨hist, hfind, ?_⟩
    split at h
    · rename_i hlt
      obtain ⟨rfl, rfl⟩ := Prod.mk.inj (Option.some.inj h)
      exact ⟨rfl, (if_pos hlt).symm⟩
    · rename_i hge
      obtain ⟨rfl, rfl⟩ := Prod.mk.inj (Option.some.inj h)
      exact ⟨rfl, (if_neg hge).symm⟩

theorem observeConnect_steps {c c' : Correlator} {ev : SecurityEvent} {hit : CorrelationHit}
    (ht : ev.type = PQSEC_EVT_TCP_CONNECT) (h : c.observeConnect ev = some (hit, c')) :
    Steps c ev c' := by
  have hd : isDownload ev = false := isDownload_eq_false (by rw [ht]; decide)
  have hw : ∀ p, isWriteTo p ev = false := isWriteTo_eq_false (by rw [ht]; decide)
  cases hpriv : isPrivateIpv4 ev.tcpDaddr with
  | true =>
    have hc : c' = c := by simp [Correlator.observeConnect, hpriv] at h; exact h.2.symm
    subst hc
    refine Steps.refl hd hw ?_
    intro k
    simp [isConnectTo, hpriv]
  | false =>
    obtain ⟨hist, -, rfl, -⟩ := observeConnect_eq_some hpriv h
    exact ⟨rfl, rfl, evolves_added_of_not hd, fun p => evolves_added_of_not (hw p),
      touchConns_evolves c ht hpriv⟩

/-- One inversion for the whole of `observe`. -/
theorem observe_steps {c c' : Correlator} {ev : SecurityEvent} {hit : CorrelationHit}
    (h : c.observe ev = some (hit, c')) : Steps c ev c' := by
  unfold Correlator.observe at h
  split at h
  · rename_i ht
    have hsteps := observeExecve_steps c ht
    rwa [Option.some.inj h] at hsteps
  · rename_i hexec
    split at h
    · rename_i ht
      exact observeConnect_steps ht h
    · rename_i hconn
      split at h
      · rename_i ht
        have hsteps := observeFile_steps c ht
        rwa [Option.some.inj h] at hsteps
      · rename_i hfile
        have hc : c = c' := congrArg Prod.snd (Option.some.inj h)
        subst hc
        exact Steps.refl (isDownload_eq_false hexec) (isWriteTo_eq_false hfile)
          (isConnectTo_eq_false hconn)

/-! ## 3. Streams of events -/

theorem observeAll_append_singleton {c c' : Correlator} {log : List SecurityEvent}
    {ev : SecurityEvent} : c.observeAll (log ++ [ev]) = some c' ↔
      ∃ c₁ hit, c.observeAll log = some c₁ ∧ c₁.observe ev = some (hit, c') := by
  simp [Correlator.observeAll, Option.bind_eq_some_iff]

/-- A property of the log and the state that every defined call keeps holds after every
stream. -/
theorem observeAll_induction {P : List SecurityEvent → Correlator → Prop} {c₀ : Correlator}
    (hinit : P [] c₀)
    (hstep : ∀ log c ev hit c', P log c → c.observe ev = some (hit, c') → P (log ++ [ev]) c')
    {log : List SecurityEvent} {c : Correlator} (h : c₀.observeAll log = some c) : P log c := by
  induction log using List.reverseRecOn generalizing c with
  | nil =>
    obtain rfl : c₀ = c := Option.some.inj h
    exact hinit
  | append_singleton log ev ih =>
    obtain ⟨c₁, hit, hlog, hev⟩ := observeAll_append_singleton.mp h
    exact hstep log c₁ ev hit c (ih hlog) hev

/-- The two parameters never change. -/
theorem observeAll_params {W : UInt64} {N : ℕ} {log : List SecurityEvent} {c : Correlator}
    (h : (Correlator.init W N).observeAll log = some c) :
    c.window_ns = W ∧ c.beacon_threshold = N := by
  refine observeAll_induction (P := fun _ c => c.window_ns = W ∧ c.beacon_threshold = N)
    ⟨rfl, rfl⟩ ?_ h
  intro log c ev hit c' hp hev
  have hs := observe_steps hev
  exact ⟨hs.window.trans hp.1, hs.threshold.trans hp.2⟩

/-! ## 4. Provenance: what the containers hold was observed -/

/-- Each container holds a tail of the list it answers for. -/
structure Provenance (log : List SecurityEvent) (c : Correlator) : Prop where
  downloads : c.downloads <:+ downloadsOf log
  staged : ∀ p, (c.staged.find? p).toList <:+ writesOf p log
  conns : ∀ k, (c.conns.find? k).getD [] <:+ connectsOf k log

theorem Provenance.step {log : List SecurityEvent} {c c' : Correlator} {ev : SecurityEvent}
    (h : Provenance log c) (hs : Steps c ev c') : Provenance (log ++ [ev]) c' where
  downloads := by
    rw [downloadsOf, map_filter_append]
    exact hs.downloads.suffix h.downloads
  staged p := by
    rw [writesOf, map_filter_append]
    exact (hs.staged p).suffix (h.staged p)
  conns k := by
    rw [connectsOf, map_filter_append]
    exact (hs.conns k).suffix (h.conns k)

theorem Provenance.of_downloads {log : List SecurityEvent} {c : Correlator}
    (h : Provenance log c) {d : Lineage} (hd : d ∈ c.downloads) :
    ∃ f ∈ log, isDownload f = true ∧ d = lineageOf f := by
  obtain ⟨f, hf, rfl⟩ := List.mem_map.mp (h.downloads.subset hd)
  exact ⟨f, List.mem_of_mem_filter hf, (List.mem_filter.mp hf).2, rfl⟩

theorem Provenance.of_staged {log : List SecurityEvent} {c : Correlator}
    (h : Provenance log c) {p : Bytes} {w : StagedWrite} (hw : c.staged.find? p = some w) :
    ∃ f ∈ log, isWriteTo p f = true ∧ w = stagedWriteOf f := by
  have hmem : w ∈ writesOf p log := (h.staged p).subset (by rw [hw]; exact List.mem_singleton_self w)
  obtain ⟨f, hf, rfl⟩ := List.mem_map.mp hmem
  exact ⟨f, List.mem_of_mem_filter hf, (List.mem_filter.mp hf).2, rfl⟩

theorem Provenance.of_conns {log : List SecurityEvent} {c : Correlator} (h : Provenance log c)
    {k : ConnKey} {t : UInt64} (ht : t ∈ (c.conns.find? k).getD []) :
    ∃ f ∈ log, isConnectTo k f = true ∧ t = f.ts_ns := by
  obtain ⟨f, hf, rfl⟩ := List.mem_map.mp ((h.conns k).subset ht)
  exact ⟨f, List.mem_of_mem_filter hf, (List.mem_filter.mp hf).2, rfl⟩

/-- Provenance holds after every stream, whatever its timestamps. -/
theorem observeAll_provenance {W : UInt64} {N : ℕ} {log : List SecurityEvent} {c : Correlator}
    (h : (Correlator.init W N).observeAll log = some c) : Provenance log c := by
  refine observeAll_induction (P := Provenance) ?_ ?_ h
  · exact ⟨List.nil_suffix, fun _ => List.nil_suffix, fun _ => List.nil_suffix⟩
  · intro log c ev hit c' hp hev
    exact hp.step (observe_steps hev)

/-! ## 5. The two capped containers -/

/-- `downloads_` and every connection history stay within their caps. -/
def Capped (c : Correlator) : Prop :=
  c.downloads.length ≤ kMaxDownloads ∧
    ∀ k, ((c.conns.find? k).getD []).length ≤ kMaxHistPerKey

theorem Capped.step {c c' : Correlator} {ev : SecurityEvent} (h : Capped c) (hs : Steps c ev c') :
    Capped c' := ⟨hs.downloads.length_le h.1, fun k => (hs.conns k).length_le (h.2 k)⟩

theorem observeAll_capped {W : UInt64} {N : ℕ} {log : List SecurityEvent} {c : Correlator}
    (h : (Correlator.init W N).observeAll log = some c) : Capped c := by
  refine observeAll_induction (P := fun _ c => Capped c) ?_ ?_ h
  · exact ⟨Nat.zero_le _, fun _ => Nat.zero_le _⟩
  · intro log c ev hit c' hp hev
    exact hp.step (observe_steps hev)

end PqcEdr.Analyzer
