/-
# The correlator's memory

`downloads_` and the connection histories drop their oldest entry at the cap, so they are bounded
on every run (`observeAll_capped`).  `staged_` and `conns_` are only swept: past the cap the
expired entries go, and everything written or connected inside one window stays.  So what bounds
them is the run: how many paths or keys it has open, with a latest write or connect that has not
expired.

* `bounded_iff_room`: where no staging write or public connect finds more open than the caps, all
  four bounds hold; where time never goes back, they hold nowhere else.
* `staged_burst`: the run that breaks them.
-/
import PqcEdr.Analyzer.Coverage
import PqcEdr.Lib.Budget

namespace PqcEdr.Analyzer

open Recency

/-- The four bounds of the header comment. -/
structure Bounded (c : Correlator) : Prop where
  downloads : c.downloads.length ≤ kMaxDownloads
  staged : c.staged.size ≤ kMaxStaged
  conns : c.conns.size ≤ kSweepKeys
  hist : ∀ k h, c.conns.find? k = some h → h.length ≤ kMaxHistPerKey

/-! ## 1. What a run has open -/

/-- The path that a staging write is remembered under. -/
def writtenPath (ev : SecurityEvent) : Option Bytes :=
  if ev.type = PQSEC_EVT_FILE_OPEN ∧ isStagingWrite ev = true then some ev.filePath else none

/-- The key that a public connect is counted under. -/
def connectedKey (ev : SecurityEvent) : Option ConnKey :=
  if ev.type = PQSEC_EVT_TCP_CONNECT ∧ isPrivateIpv4 ev.tcpDaddr = false then some (connKeyOf ev)
  else none

/-- The distinct keys of the events so far whose latest event has not expired. -/
def openKeys {κ : Type} [DecidableEq κ] (key : SecurityEvent → Option κ) (W now : UInt64)
    (log : List SecurityEvent) : List κ :=
  (log.filterMap key).eraseDups.filter fun k =>
    (log.filter fun f => decide (key f = some k)).getLast?.any fun f => !expired W now f.ts_ns

/-- An event that is remembered finds no more open, itself included, than the caps allow. -/
structure RoomAt (W : UInt64) (log : List SecurityEvent) (ev : SecurityEvent) : Prop where
  staged : writtenPath ev ≠ none →
    (openKeys writtenPath W ev.ts_ns (log ++ [ev])).length ≤ kMaxStaged
  conns : connectedKey ev ≠ none →
    (openKeys connectedKey W ev.ts_ns (log ++ [ev])).length ≤ kSweepKeys

/-- Every event of the run finds room. -/
def RunRoom (W : UInt64) (run : List SecurityEvent) : Prop :=
  ∀ pre ev, pre ++ [ev] <+: run → RoomAt W pre ev

/-- Every state of the run is bounded. -/
def RunBounded (c₀ : Correlator) (run : List SecurityEvent) : Prop :=
  ∀ pre, pre <+: run → ∀ c, c₀.observeAll pre = some c → Bounded c

theorem writtenPath_eq_some (p : Bytes) :
    (fun f => decide (writtenPath f = some p)) = isWriteTo p := by
  funext f
  unfold writtenPath isWriteTo
  split <;> simp_all

theorem connectedKey_eq_some (k : ConnKey) :
    (fun f => decide (connectedKey f = some k)) = isConnectTo k := by
  funext f
  unfold connectedKey isConnectTo
  split <;> simp_all

section OpenKeys

variable {κ : Type} [DecidableEq κ] {key : SecurityEvent → Option κ} {W now : UInt64}
  {log : List SecurityEvent}

theorem mem_openKeys {k : κ} : k ∈ openKeys key W now log ↔
    ∃ f, (log.filter fun f => decide (key f = some k)).getLast? = some f ∧
      expired W now f.ts_ns = false := by
  unfold openKeys
  rw [List.mem_filter, List.mem_eraseDups, Option.any_eq_true]
  constructor
  · rintro ⟨-, f, hf, hlive⟩
    exact ⟨f, hf, by simpa using hlive⟩
  · rintro ⟨f, hf, hlive⟩
    obtain ⟨hlog, hkey⟩ := List.mem_filter.mp (List.mem_of_getLast? hf)
    exact ⟨List.mem_filterMap.mpr ⟨f, hlog, of_decide_eq_true hkey⟩, f, hf, by simp [hlive]⟩

theorem nodup_openKeys : (openKeys key W now log).Nodup :=
  (Budget.nodup_eraseDups _).filter _

/-- No more keys are open than there were events. -/
theorem length_openKeys_le : (openKeys key W now log).length ≤ log.length :=
  (List.length_filter_le _ _).trans
    ((Budget.length_eraseDups_le _).trans (List.length_filterMap_le _ _))

end OpenKeys

theorem RunRoom.left {W : UInt64} {run : List SecurityEvent} {ev : SecurityEvent}
    (h : RunRoom W (run ++ [ev])) : RunRoom W run := by
  intro pre x hpre
  exact h pre x (hpre.trans (List.prefix_append run [ev]))

/-! ## 2. One event -/

/-- An event keeps the two swept maps as they are, or is a staging write, or is a public
connect. -/
theorem observe_maps_cases {c c' : Correlator} {ev : SecurityEvent} {hit : CorrelationHit}
    (h : c.observe ev = some (hit, c')) :
    (c'.staged = c.staged ∧ c'.conns = c.conns ∧
      ¬ (ev.type = PQSEC_EVT_FILE_OPEN ∧ isStagingWrite ev = true) ∧
      ¬ (ev.type = PQSEC_EVT_TCP_CONNECT ∧ isPrivateIpv4 ev.tcpDaddr = false)) ∨
    (ev.type = PQSEC_EVT_FILE_OPEN ∧ isStagingWrite ev = true ∧
      c'.staged = (c.observeFile ev).2.staged ∧ c'.conns = c.conns) ∨
    (ev.type = PQSEC_EVT_TCP_CONNECT ∧ isPrivateIpv4 ev.tcpDaddr = false ∧
      c'.staged = c.staged ∧ c'.conns = c.touchConns ev) := by
  unfold Correlator.observe at h
  split at h
  · rename_i ht
    have hne : ¬ ev.type = PQSEC_EVT_FILE_OPEN ∧ ¬ ev.type = PQSEC_EVT_TCP_CONNECT := by
      rw [ht]
      decide
    have hc' : (c.observeExecve ev).2 = c' := congrArg Prod.snd (Option.some.inj h)
    rw [observeExecve_state] at hc'
    subst hc'
    exact Or.inl ⟨rfl, rfl, fun h => hne.1 h.1, fun h => hne.2 h.1⟩
  · split at h
    · rename_i ht
      have hne : ¬ ev.type = PQSEC_EVT_FILE_OPEN := by
        rw [ht]
        decide
      cases hpriv : isPrivateIpv4 ev.tcpDaddr with
      | true =>
        rw [Correlator.observeConnect, if_pos hpriv] at h
        obtain ⟨-, rfl⟩ := Prod.mk.inj (Option.some.inj h)
        exact Or.inl ⟨rfl, rfl, fun h => hne h.1, by simp⟩
      | false =>
        obtain ⟨_, -, rfl, -⟩ := observeConnect_eq_some hpriv h
        exact Or.inr (Or.inr ⟨ht, rfl, rfl, rfl⟩)
    · rename_i htcp
      split at h
      · rename_i ht
        cases hw : isStagingWrite ev with
        | true =>
          have hc' : (c.observeFile ev).2 = c' := congrArg Prod.snd (Option.some.inj h)
          refine Or.inr (Or.inl ⟨ht, rfl, by rw [hc'], ?_⟩)
          rw [← hc']
          simp [Correlator.observeFile, hw]
        | false =>
          obtain ⟨-, rfl⟩ : ({} : CorrelationHit) = hit ∧ c = c' := by
            simpa [Correlator.observeFile, hw] using h
          exact Or.inl ⟨rfl, rfl, by simp, fun h => htcp h.1⟩
      · rename_i hfile
        obtain ⟨-, rfl⟩ := Prod.mk.inj (Option.some.inj h)
        exact Or.inl ⟨rfl, rfl, fun h => hfile h.1, fun h => htcp h.1⟩

/-! ## 3. What the maps hold is open -/

section Held

variable {W : UInt64} {N : ℕ} {log : List SecurityEvent} {c : Correlator}

/-- The latest entry of a tail of such a list is that of the latest event. -/
theorem exists_latest {β : Type} {p : SecurityEvent → Bool} {f : SecurityEvent → β} {q : List β}
    (hq : q <:+ (log.filter p).map f) {y : β} (hy : q.getLast? = some y) :
    ∃ x, (log.filter p).getLast? = some x ∧ y = f x := by
  have hlast := getLast?_of_suffix hq hy
  rw [List.getLast?_map] at hlast
  obtain ⟨x, hx, rfl⟩ := Option.map_eq_some_iff.mp hlast
  exact ⟨x, hx, rfl⟩

theorem open_of_staged (hp : Provenance log c) {now : UInt64} {p : Bytes} {w : StagedWrite}
    (hw : c.staged.find? p = some w) (hlive : expired W now w.ts_ns = false) :
    p ∈ openKeys writtenPath W now log := by
  have hlast : (c.staged.find? p).toList.getLast? = some w := by rw [hw]; rfl
  obtain ⟨f, hf, rfl⟩ := exists_latest (hp.staged p) hlast
  rw [mem_openKeys, writtenPath_eq_some]
  exact ⟨f, hf, hlive⟩

theorem open_of_conns (hp : Provenance log c) {now : UInt64} {k : ConnKey} {hist : List UInt64}
    (hk : c.conns.find? k = some hist) (hlive : Correlator.sweepsOut W now hist = false) :
    k ∈ openKeys connectedKey W now log := by
  unfold Correlator.sweepsOut at hlive
  split at hlive
  · cases hlive
  · rename_i t ht
    have hlast : ((c.conns.find? k).getD []).getLast? = some t := by rw [hk]; exact ht
    obtain ⟨f, hf, rfl⟩ := exists_latest (hp.conns k) hlast
    rw [mem_openKeys, connectedKey_eq_some]
    exact ⟨f, hf, hlive⟩

/-- One event keeps the two swept maps within their caps if it finds room. -/
theorem sizes_step {c' : Correlator} {ev : SecurityEvent} {hit : CorrelationHit}
    (hp : Provenance log c) (hW : c.window_ns = W) (h : c.observe ev = some (hit, c'))
    (hroom : RoomAt W log ev) (hs : c.staged.size ≤ kMaxStaged) (hk : c.conns.size ≤ kSweepKeys) :
    c'.staged.size ≤ kMaxStaged ∧ c'.conns.size ≤ kSweepKeys := by
  have hp' := hp.step (observe_steps h)
  rcases observe_maps_cases h with ⟨hst, hco, -, -⟩ | ⟨ht, hw, hst, hco⟩ | ⟨ht, hpub, hst, hco⟩
  · rw [hst, hco]
    exact ⟨hs, hk⟩
  · refine ⟨?_, by rw [hco]; exact hk⟩
    have hfew := hroom.staged (by simp [writtenPath, ht, hw])
    have hres : c'.staged =
        if (c.staged.put ev.filePath (stagedWriteOf ev)).size > kMaxStaged then
          (c.staged.put ev.filePath (stagedWriteOf ev)).eraseIf fun _ w =>
            expired c.window_ns ev.ts_ns w.ts_ns
        else c.staged.put ev.filePath (stagedWriteOf ev) := by
      rw [hst]
      simp [Correlator.observeFile, hw]
    split at hres
    · refine (AssocMap.size_le_length fun p w hfind => ?_).trans hfew
      have hkept := hfind
      rw [hres, AssocMap.find?_eraseIf, Option.filter_eq_some_iff, hW] at hkept
      exact open_of_staged hp' hfind (by simpa using hkept.2)
    · rename_i hsmall
      rw [hres]
      exact not_lt.mp hsmall
  · refine ⟨by rw [hst]; exact hs, ?_⟩
    have hfew := hroom.conns (by simp [connectedKey, ht, hpub])
    have hres : c'.conns =
        if (c.conns.put (connKeyOf ev) (c.touchHistory ev)).size > kSweepKeys then
          (c.conns.put (connKeyOf ev) (c.touchHistory ev)).eraseIf fun _ hist =>
            Correlator.sweepsOut c.window_ns ev.ts_ns hist
        else c.conns.put (connKeyOf ev) (c.touchHistory ev) := hco
    split at hres
    · refine (AssocMap.size_le_length fun k hist hfind => ?_).trans hfew
      have hkept := hfind
      rw [hres, AssocMap.find?_eraseIf, Option.filter_eq_some_iff, hW] at hkept
      exact open_of_conns hp' hfind (by simpa using hkept.2)
    · rename_i hsmall
      rw [hres]
      exact not_lt.mp hsmall

theorem sizes_of_room (h : (Correlator.init W N).observeAll log = some c) (hroom : RunRoom W log) :
    c.staged.size ≤ kMaxStaged ∧ c.conns.size ≤ kSweepKeys := by
  induction log using List.reverseRecOn generalizing c with
  | nil =>
    obtain rfl := Option.some.inj h
    exact ⟨Nat.zero_le _, Nat.zero_le _⟩
  | append_singleton log ev ih =>
    obtain ⟨c₁, hit, hlog, hev⟩ := observeAll_append_singleton.mp h
    obtain ⟨hs, hk⟩ := ih hlog hroom.left
    exact sizes_step (observeAll_provenance hlog) (observeAll_params hlog).1 hev
      (hroom log ev List.prefix_rfl) hs hk

/-! ## 4. What is open is in the maps -/

/-- Where the latest of these events has not expired, the container ends with it. -/
def Latest {β : Type} (W now : UInt64) (p : SecurityEvent → Bool) (f : SecurityEvent → β)
    (log : List SecurityEvent) (q : List β) : Prop :=
  ∀ x, (log.filter p).getLast? = some x → expired W now x.ts_ns = false →
    q.getLast? = some (f x)

/-- What has not expired now had not expired before. -/
theorem not_expired_of_le {now now' t : UInt64} (hle : now' ≤ now)
    (h : expired W now t = false) : expired W now' t = false := by
  unfold expired at h ⊢
  exact decide_eq_false fun hlt => of_decide_eq_false h (UInt64.lt_of_lt_of_le hlt hle)

theorem latest_step {β : Type} (stamp : β → UInt64) {cap : ℕ} (hcap : 0 < cap) {now : UInt64}
    {ev : SecurityEvent} {p : SecurityEvent → Bool} {f : SecurityEvent → β} {q q' : List β}
    (hf : ∀ x, stamp (f x) = x.ts_ns) (hnow : ev.ts_ns ≤ now)
    (hev : Evolves cap (fun x => expired W ev.ts_ns (stamp x)) q (added p f ev) q')
    (hq : Latest W now p f log q) : Latest W now p f (log ++ [ev]) q' := by
  intro x hx hlive
  refine hev.getLast? hcap ?_ (by rw [hf]; exact not_expired_of_le hnow hlive)
  rw [List.filter_append, List.getLast?_append] at hx
  unfold added
  cases hp : p ev with
  | true =>
    rw [List.filter_singleton, hp] at hx
    obtain rfl : ev = x := by simpa using hx
    simp
  | false =>
    rw [List.filter_singleton, hp] at hx
    have hold := hq x (by simpa using hx) hlive
    simpa using hold

theorem observeAll_latest (h : (Correlator.init W N).observeAll log = some c) {now : UInt64}
    (hnow : ∀ ev ∈ log, ev.ts_ns ≤ now) :
    (∀ p, Latest W now (isWriteTo p) stagedWriteOf log (c.staged.find? p).toList) ∧
      ∀ k, Latest W now (isConnectTo k) SecurityEvent.ts_ns log ((c.conns.find? k).getD []) := by
  induction log using List.reverseRecOn generalizing c with
  | nil =>
    refine ⟨fun _ x hx => ?_, fun _ x hx => ?_⟩
    all_goals cases hx
  | append_singleton log ev ih =>
    obtain ⟨c₁, hit, hlog, hev⟩ := observeAll_append_singleton.mp h
    obtain ⟨hs, hk⟩ := ih hlog fun x hx => hnow x (List.mem_append_left _ hx)
    have hle : ev.ts_ns ≤ now := hnow ev (by simp)
    have hsteps := observe_steps hev
    obtain ⟨rfl, -⟩ := observeAll_params hlog
    exact ⟨fun p => latest_step StagedWrite.ts_ns Nat.one_pos (fun _ => rfl) hle (hsteps.staged p)
      (hs p), fun k => latest_step id (by decide) (fun _ => rfl) hle (hsteps.conns k) (hk k)⟩

/-- At a time that no event is later than, the maps hold all that is open. -/
theorem openKeys_length_le (h : (Correlator.init W N).observeAll log = some c) {now : UInt64}
    (hnow : ∀ ev ∈ log, ev.ts_ns ≤ now) :
    (openKeys writtenPath W now log).length ≤ c.staged.size ∧
      (openKeys connectedKey W now log).length ≤ c.conns.size := by
  obtain ⟨hs, hk⟩ := observeAll_latest h hnow
  constructor
  · refine AssocMap.length_le_size nodup_openKeys ?_
    intro p hp
    rw [mem_openKeys, writtenPath_eq_some] at hp
    obtain ⟨f, hf, hlive⟩ := hp
    have hlast := hs p f hf hlive
    cases hfind : c.staged.find? p with
    | none =>
      rw [hfind] at hlast
      cases hlast
    | some w => exact ⟨w, rfl⟩
  · refine AssocMap.length_le_size nodup_openKeys ?_
    intro k hkey
    rw [mem_openKeys, connectedKey_eq_some] at hkey
    obtain ⟨f, hf, hlive⟩ := hkey
    have hlast := hk k f hf hlive
    cases hfind : c.conns.find? k with
    | none =>
      rw [hfind] at hlast
      cases hlast
    | some hist => exact ⟨hist, rfl⟩

end Held

/-! ## 5. Every run -/

/-- In every run whose staging writes and public connects find room, whatever its clock does, every
state is bounded; and in a run that `observe` answers and whose time never goes back, this is the
only way. -/
theorem bounded_iff_room (W : UInt64) (N : ℕ) (run : List SecurityEvent) :
    (RunRoom W run → RunBounded (Correlator.init W N) run) ∧
    (run.Pairwise (fun a b => a.ts_ns ≤ b.ts_ns) →
      (∃ last, (Correlator.init W N).observeAll run = some last) →
        (RunBounded (Correlator.init W N) run ↔ RunRoom W run)) := by
  have hroom : RunRoom W run → RunBounded (Correlator.init W N) run := by
    intro hroom pre hpre c hc
    obtain ⟨hs, hk⟩ := sizes_of_room hc fun pre' ev h => hroom pre' ev (h.trans hpre)
    exact ⟨(observeAll_capped hc).1, hs, hk, fun k hist hfind => by
      simpa [hfind] using (observeAll_capped hc).2 k⟩
  refine ⟨hroom, ?_⟩
  rintro hsorted ⟨last, hlast⟩
  refine ⟨fun hbounded pre ev hpre => ?_, hroom⟩
  obtain ⟨post, rfl⟩ := hpre
  obtain ⟨c, hc⟩ : ∃ c, (Correlator.init W N).observeAll (pre ++ [ev]) = some c := by
    rw [Correlator.observeAll, List.foldlM_append] at hlast
    obtain ⟨c, hc, -⟩ := Option.bind_eq_some_iff.mp hlast
    exact ⟨c, hc⟩
  have hnow : ∀ x ∈ pre ++ [ev], x.ts_ns ≤ ev.ts_ns := by
    intro x hx
    rcases List.mem_append.mp hx with hx | hx
    · exact (List.pairwise_append.mp (List.pairwise_append.mp hsorted).1).2.2 x hx ev (by simp)
    · rw [List.mem_singleton.mp hx]
      exact UInt64.le_refl _
  obtain ⟨hs, hk⟩ := openKeys_length_le hc hnow
  have hb := hbounded _ (List.prefix_append _ _) c hc
  exact ⟨fun _ => hs.trans hb.staged, fun _ => hk.trans hb.conns⟩

/-! ## 6. A burst of staging writes -/

/-- Writes to distinct staging paths at one moment are all kept, however many there are: the
sweep finds none of them expired. -/
theorem staged_burst {W t : UInt64} {N : ℕ} {log : List SecurityEvent}
    (hlive : expired W t t = false)
    (hlog : ∀ f ∈ log, f.type = PQSEC_EVT_FILE_OPEN ∧ isStagingWrite f = true ∧ f.ts_ns = t)
    (hdistinct : (log.map SecurityEvent.filePath).Nodup) :
    ∃ c, (Correlator.init W N).observeAll log = some c ∧ c.staged.size = log.length := by
  induction log using List.reverseRecOn with
  | nil => exact ⟨_, rfl, rfl⟩
  | append_singleton log ev ih =>
    rw [List.map_append, List.map_singleton] at hdistinct
    obtain ⟨hnd, -, hnew⟩ := List.nodup_append'.mp hdistinct
    obtain ⟨c, hc, hsize⟩ := ih (fun f hf => hlog f (by simp [hf])) hnd
    obtain ⟨htype, hw, hts⟩ := hlog ev (by simp)
    have hW := (observeAll_params hc).1
    have hprov := observeAll_provenance hc
    -- every staged entry is a write of the log, so its path is another one and its time is `t`
    have hentry : ∀ p w, c.staged.find? p = some w →
        p ∈ log.map SecurityEvent.filePath ∧ w.ts_ns = t := by
      intro p w hfind
      obtain ⟨f, hflog, hfp, rfl⟩ := hprov.of_staged hfind
      simp only [isWriteTo, Bool.and_eq_true, decide_eq_true_eq] at hfp
      exact ⟨List.mem_map.mpr ⟨f, hflog, hfp.2⟩, (hlog f (by simp [hflog])).2.2⟩
    have hfresh : c.staged.find? ev.filePath = none := by
      cases hfind : c.staged.find? ev.filePath with
      | none => rfl
      | some w => exact absurd (hentry _ w hfind).1 fun hm => hnew hm (by simp)
    have hput : (c.staged.put ev.filePath (stagedWriteOf ev)).size = log.length + 1 := by
      rw [AssocMap.size_put_of_find?_none hfresh, hsize]
    have hkeep : ∀ e ∈ (c.staged.put ev.filePath (stagedWriteOf ev)).entries,
        expired c.window_ns ev.ts_ns e.2.ts_ns = false := by
      rintro ⟨p, w⟩ he
      have hfind := AssocMap.find?_eq_some_iff.mpr he
      rw [hW, hts]
      by_cases hp : p = ev.filePath
      · subst hp
        rw [AssocMap.find?_put_self] at hfind
        rw [← Option.some.inj hfind, stagedWriteOf, hts, hlive]
      · rw [AssocMap.find?_put_of_ne hp] at hfind
        rw [(hentry p w hfind).2, hlive]
    refine ⟨(c.observeFile ev).2, observeAll_append_singleton.mpr
      ⟨c, (c.observeFile ev).1, hc, by simp [Correlator.observe, htype, PQSEC_EVT_EXECVE,
        PQSEC_EVT_TCP_CONNECT, PQSEC_EVT_FILE_OPEN]⟩, ?_⟩
    rw [Correlator.observeFile, if_neg (by simp [hw]), List.length_append, List.length_singleton]
    dsimp only
    split
    · rw [AssocMap.eraseIf_of_keep hkeep]
      exact hput
    · exact hput

/-- The `i`-th path of the burst: two nonzero bytes under `/tmp/`. -/
def burstPath (i : ℕ) : Bytes :=
  lit "/tmp/" ++ [UInt8.ofNat (1 + i / 255), UInt8.ofNat (1 + i % 255)]

def burstWrite (i : ℕ) : SecurityEvent :=
  .synFileOpen (lit "sh") (burstPath i) PQSEC_FA_WRITE 7 6 0

theorem burstPath_inj {i j : ℕ} (hi : i < 513) (hj : j < 513) (h : burstPath i = burstPath j) :
    i = j := by
  have h' := List.append_cancel_left h
  simp only [List.cons.injEq, and_true, UInt8.ofNat_eq_iff_mod_eq_toNat, UInt8.toNat_ofNat'] at h'
  omega

theorem zero_not_mem_burstPath {i : ℕ} (hi : i < 513) : 0 ∉ burstPath i := by
  have hpre : (0 : UInt8) ∉ lit "/tmp/" := by decide
  have hne : ∀ n, n < 256 → UInt8.ofNat n = 0 → n = 0 := by
    intro n hn h
    have := congrArg UInt8.toNat h
    simp only [UInt8.toNat_ofNat', UInt8.toNat_zero] at this
    omega
  intro h
  rcases List.mem_append.mp h with h | h
  · exact hpre h
  · simp only [List.mem_cons, List.not_mem_nil, or_false] at h
    rcases h with h | h
    · exact absurd (hne _ (by omega) h.symm) (by omega)
    · exact absurd (hne _ (by omega) h.symm) (by omega)

theorem filePath_burstWrite {i : ℕ} (hi : i < 513) : (burstWrite i).filePath = burstPath i :=
  SecurityEvent.filePath_synFileOpen (zero_not_mem_burstPath hi) (by
    simp only [burstPath, List.length_append, List.length_cons, List.length_nil]
    decide)

theorem burstWrite_staging {i : ℕ} (hi : i < 513) : isStagingWrite (burstWrite i) = true := by
  have hacc : (burstWrite i).fileAccess = PQSEC_FA_WRITE :=
    SecurityEvent.fileAccess_synFileOpen _ _ _ _ _ _
  have htmp : isTempPath (burstPath i) = true := by
    have : (lit "/tmp/").isPrefixOf (burstPath i) = true :=
      List.isPrefixOf_iff_prefix.mpr (List.prefix_append _ _)
    rw [isTempPath, this, Bool.true_or, Bool.true_or]
  have hne : burstPath i ≠ [] := by simp [burstPath]
  rw [isStagingWrite, hacc, filePath_burstWrite hi, htmp]
  simp [hne, PQSEC_FA_WRITE]

theorem burst_writes {n : ℕ} (hn : n ≤ 513) : ∀ f ∈ (List.range n).map burstWrite,
    f.type = PQSEC_EVT_FILE_OPEN ∧ isStagingWrite f = true ∧ f.ts_ns = 0 := by
  intro f hf
  obtain ⟨i, hi, rfl⟩ := List.mem_map.mp hf
  exact ⟨rfl, burstWrite_staging ((List.mem_range.mp hi).trans_le hn), rfl⟩

/-- Up to 513 distinct paths written at once are all kept. -/
theorem exists_burst {n : ℕ} (hn : n ≤ 513) : ∃ c,
    (Correlator.init 60000000000 3).observeAll ((List.range n).map burstWrite) = some c ∧
      c.staged.size = n := by
  have hdistinct : (((List.range n).map burstWrite).map SecurityEvent.filePath).Nodup := by
    rw [List.map_map]
    refine List.Nodup.map_on ?_ List.nodup_range
    intro i hi j hj h
    have hi := (List.mem_range.mp hi).trans_le hn
    have hj := (List.mem_range.mp hj).trans_le hn
    rw [Function.comp, Function.comp, filePath_burstWrite hi, filePath_burstWrite hj] at h
    exact burstPath_inj hi hj h
  have hlive : expired 60000000000 0 0 = false := by decide
  obtain ⟨c, hc, hsize⟩ := staged_burst (N := 3) hlive (burst_writes hn) hdistinct
  rw [List.length_map, List.length_range] at hsize
  exact ⟨c, hc, hsize⟩

/-- 513 distinct paths written within one window: `staged_` holds one more than its cap. -/
theorem staged_exceeds_cap :
    ∃ c, (Correlator.init 60000000000 3).observeAll ((List.range 513).map burstWrite) = some c ∧
      c.staged.size = 513 ∧ ¬ Bounded c := by
  obtain ⟨c, hc, hsize⟩ := exists_burst (le_refl 513)
  refine ⟨c, hc, hsize, ?_⟩
  intro hb
  have hcap := hb.staged
  rw [hsize, kMaxStaged] at hcap
  omega

/-- One path fewer fills `staged_` to its cap, and the next write comes behind the window. -/
def lateWrite : SecurityEvent :=
  .synFileOpen (lit "sh") (lit "/tmp/late") PQSEC_FA_WRITE 7 6 60000000001

theorem runRoom_burst :
    RunRoom 60000000000 ((List.range 512).map burstWrite ++ [lateWrite]) := by
  have hconnect : ∀ f ∈ (List.range 512).map burstWrite ++ [lateWrite], connectedKey f = none := by
    intro f hf
    rcases List.mem_append.mp hf with hf | hf
    · obtain ⟨i, -, rfl⟩ := List.mem_map.mp hf
      rfl
    · rw [List.mem_singleton.mp hf]
      rfl
  intro pre ev hpre
  refine ⟨fun _ => ?_, fun hne => absurd (hconnect ev (hpre.subset (by simp))) hne⟩
  rcases List.prefix_concat_iff.mp hpre with hlast | hburst
  · have hev : ev = lateWrite := (List.cons.inj (List.append_inj' hlast rfl).2).1
    rw [hlast, hev]
    -- nothing but the late path is open
    have hopen : openKeys writtenPath 60000000000 lateWrite.ts_ns
        ((List.range 512).map burstWrite ++ [lateWrite]) ⊆ [lateWrite.filePath] := by
      intro p hp
      obtain ⟨f, hf, hlive⟩ := mem_openKeys.mp hp
      obtain ⟨hlog, hkey⟩ := List.mem_filter.mp (List.mem_of_getLast? hf)
      rcases List.mem_append.mp hlog with hold | hnew
      · rw [(burst_writes (by decide) f hold).2.2] at hlive
        exact absurd hlive (by decide)
      · obtain rfl := List.mem_singleton.mp hnew
        have hpath : writtenPath lateWrite = some lateWrite.filePath := by decide
        rw [hpath] at hkey
        rw [← Option.some.inj (of_decide_eq_true hkey)]
        exact List.mem_singleton_self _
    exact (List.subperm_of_subset nodup_openKeys hopen).length_le.trans (by decide)
  · have hlen := hburst.length_le
    rw [List.length_map, List.length_range] at hlen
    exact length_openKeys_le.trans hlen

/-- The map is filled to its cap, the write behind the window makes it sweep, and all states are
bounded. -/
theorem bounded_iff_room_burst : ∃ c c',
    (Correlator.init 60000000000 3).observeAll ((List.range 512).map burstWrite) = some c ∧
      c.staged.size = 512 ∧ Bounded c ∧
      (Correlator.init 60000000000 3).observeAll
        ((List.range 512).map burstWrite ++ [lateWrite]) = some c' ∧ Bounded c' := by
  obtain ⟨c, hc, hsize⟩ := exists_burst (show 512 ≤ 513 by decide)
  have hbounded := (bounded_iff_room 60000000000 3 _).1 runRoom_burst
  have hlate : (Correlator.init 60000000000 3).observeAll
      ((List.range 512).map burstWrite ++ [lateWrite]) = some (c.observeFile lateWrite).2 :=
    observeAll_append_singleton.mpr ⟨c, (c.observeFile lateWrite).1, hc, rfl⟩
  exact ⟨c, _, hc, hsize, hbounded _ (List.prefix_append _ _) c hc, hlate,
    hbounded _ List.prefix_rfl _ hlate⟩

end PqcEdr.Analyzer
