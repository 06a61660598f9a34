/-
# What recording and replaying does to time

A recording keeps the gaps between events in whole milliseconds, and those of ten milliseconds or
less not at all; the replay adds a millisecond for every event.  What the two make of the distance
between two events is a sum over all the events between them, and the window of the correlator may
hold on the one clock and not on the other.

* `replayTimes`: the replay's times, computed from the captured ones.
* `replay_windows_iff`: when a recording replays alike.
* `KeepsWindows`: the same in natural numbers, where no sum wraps.
-/
import PqcEdr.Agent.RecordSink
import PqcEdr.Analyzer.Replay
import PqcEdr.Lib.Lists

namespace PqcEdr.Analyzer

open EventsFile TextInput Agent Crypto

/-! ## 1. The replay's times -/

/-- How far the replay's clock moves from an event at `last_ts` to the next one written. -/
def replayStep (last_ts ts_ns : UInt64) : UInt64 :=
  (match delayMs last_ts ts_ns with
    | some ms => 1000000 * ms
    | none => 0) + 1000000

/-- The replay's times of events captured at these times. -/
def replayTimes : UInt64 → UInt64 → List UInt64 → List UInt64
  | _, _, [] => []
  | vclock, last_ts, ts_ns :: rest =>
    (vclock + replayStep last_ts ts_ns) ::
      replayTimes (vclock + replayStep last_ts ts_ns) ts_ns rest

/-- The event that its line was read as, whatever the clock then said. -/
def ReadBack (e ev : SecurityEvent) : Prop :=
  ∃ e₀ n t, parseLine n (fullLine ev) = .ok (some (.event e₀ [] n)) ∧ e = { e₀ with ts_ns := t }

/-- The lines of one event, read: the clock moves by a step, and the event is stamped. -/
theorem stamped_recordedLines_cons {ev e : SecurityEvent}
    (h : ∀ n, parseLine n (fullLine ev) = .ok (some (.event e [] n))) (name : String) (n : ℕ)
    (last_ts vclock : UInt64) (evs : List SecurityEvent) :
    ∃ m, (parseLines name n (recordedLines last_ts (ev :: evs))).2 =
        (parseLines name m (recordedLines ev.ts_ns evs)).2 ∧
      stamped vclock (parseLines name n (recordedLines last_ts (ev :: evs))).1 =
        { e with ts_ns := vclock + replayStep last_ts ev.ts_ns } ::
          stamped (vclock + replayStep last_ts ev.ts_ns)
            (parseLines name m (recordedLines ev.ts_ns evs)).1 := by
  rw [recordedLines, replayStep]
  cases hms : delayMs last_ts ev.ts_ns with
  | none =>
    refine ⟨n + 1, ?_, ?_⟩
    · simp [parseLines, h]
    · simp [parseLines, h, stamped]
  | some ms =>
    have hdelay := parseLine_delayLine (delayMs_lt hms)
    have hns : delayNs ms.toNat = 1000000 * ms := by rw [delayNs, UInt64.ofNat_toNat]
    refine ⟨n + 1 + 1, ?_, ?_⟩
    · simp [parseLines, h, hdelay]
    · simp [parseLines, h, hdelay, stamped, hns, UInt64.add_assoc]

theorem parse_recordedLines_error {ev : SecurityEvent} {why : String}
    (h : ∀ n, parseLine n (fullLine ev) = .error why) (name : String) (n : ℕ) (last_ts : UInt64)
    (evs : List SecurityEvent) :
    (parseLines name n (recordedLines last_ts (ev :: evs))).2 ≠ none := by
  rw [recordedLines]
  cases hms : delayMs last_ts ev.ts_ns with
  | none => simp [parseLines, h]
  | some ms => simp [parseLines, h, parseLine_delayLine (delayMs_lt hms)]

/-- A line either calls back with one event, or is refused. -/
theorem parseLine_fullLine_cases (ev : SecurityEvent) :
    (∃ e, ∀ n, parseLine n (fullLine ev) = .ok (some (.event e [] n))) ∨
      ∃ why, ∀ n, parseLine n (fullLine ev) = .error why := by
  obtain ⟨s, -, hline⟩ := parseLine_fullLine ev
  rcases hev : parseEvent (lineKind ev) s with why | e
  · exact Or.inr ⟨why, fun n => by rw [hline n, hev]; rfl⟩
  · exact Or.inl ⟨e, fun n => by rw [hline n, hev]; rfl⟩

/-- **What the replay of a recording classifies.**  If no line is refused, every event written comes
back once and in order, at the time that the captured ones decide. -/
theorem stamped_recordedLines (name : String) {evs : List SecurityEvent} (n : ℕ)
    (last_ts vclock : UInt64)
    (h : (parseLines name n (recordedLines last_ts evs)).2 = none) :
    List.Forall₂ ReadBack
        (stamped vclock (parseLines name n (recordedLines last_ts evs)).1) evs ∧
      (stamped vclock (parseLines name n (recordedLines last_ts evs)).1).map SecurityEvent.ts_ns =
        replayTimes vclock last_ts (evs.map SecurityEvent.ts_ns) := by
  induction evs generalizing n last_ts vclock with
  | nil => exact ⟨List.Forall₂.nil, rfl⟩
  | cons ev evs ih =>
    rcases parseLine_fullLine_cases ev with ⟨e, he⟩ | ⟨why, hwhy⟩
    · obtain ⟨m, hexn, hstamped⟩ := stamped_recordedLines_cons he name n last_ts vclock evs
      rw [hexn] at h
      obtain ⟨hread, htimes⟩ := ih m ev.ts_ns (vclock + replayStep last_ts ev.ts_ns) h
      rw [hstamped]
      refine ⟨List.Forall₂.cons ⟨e, 0, _, he 0, rfl⟩ hread, ?_⟩
      rw [List.map_cons, List.map_cons, replayTimes, htimes]
    · exact absurd h (parse_recordedLines_error hwhy name n last_ts evs)

theorem parse_recordedLines_eq_none (name : String) {evs : List SecurityEvent} (n : ℕ)
    (last_ts : UInt64)
    (h : ∀ ev ∈ evs, ∃ e, ∀ m, parseLine m (fullLine ev) = .ok (some (.event e [] m))) :
    (parseLines name n (recordedLines last_ts evs)).2 = none := by
  induction evs generalizing n last_ts with
  | nil => rfl
  | cons ev evs ih =>
    obtain ⟨e, he⟩ := h ev List.mem_cons_self
    obtain ⟨m, hexn, -⟩ := stamped_recordedLines_cons he name n last_ts 0 evs
    rw [hexn]
    exact ih m ev.ts_ns fun x hx => h x (List.mem_cons_of_mem ev hx)

/-! ## 2. Replaying alike -/

/-- What `run_file` classifies when it reads the recording of `log`. -/
def replayed (stamp : Bytes) (path : String) (log : List SecurityEvent) : List SecurityEvent :=
  stamped 1000000000 (parse (recordAll stamp log) path).1

/-- The recording of `log` replays as it was captured: the events come back, every two of them are
in the window on both clocks or on neither, and a fresh correlator raises the same hits. -/
structure ReplaysAlike (L : LlmClient) (llm : L.State) (stamp : Bytes) (path : String)
    (log : List SecurityEvent) : Prop where
  read : (runFile L (recordAll stamp log) path llm).2 = none
  events : List.Forall₂ SameFields (replayed stamp path log) (recorded log)
  windows : SameWindows defaultWindow ((recorded log).map SecurityEvent.ts_ns)
    ((replayed stamp path log).map SecurityEvent.ts_ns)
  hits : Option.Rel (List.Forall₂ SameHit) (Correlator.fresh.hitsOf (recorded log))
    ((runFile L (recordAll stamp log) path llm).1.map (List.filterMap Call.hit?))

/-- The header adds nothing. -/
theorem parse_recordAll {stamp : Bytes} (hstamp : 10 ∉ stamp) (path : String)
    (log : List SecurityEvent) :
    parse (recordAll stamp log) path = parseLines path 1 (recordedLines 0 (recorded log)) := by
  rw [parse, lines_recordAll hstamp, parseLines, parseLine_headerLine]

theorem replayed_times {stamp : Bytes} (hstamp : 10 ∉ stamp) {path : String}
    {log : List SecurityEvent} (h : (parse (recordAll stamp log) path).2 = none) :
    List.Forall₂ ReadBack (replayed stamp path log) (recorded log) ∧
      (replayed stamp path log).map SecurityEvent.ts_ns =
        replayTimes 1000000000 0 ((recorded log).map SecurityEvent.ts_ns) := by
  rw [replayed]
  rw [parse_recordAll hstamp] at h ⊢
  exact stamped_recordedLines path 1 0 1000000000 h

/-- The first NUL is in the path's field. -/
theorem cString_take {l : Bytes} {n : ℕ} (h : 0 ∈ l.take n) : cString l = cString (l.take n) := by
  obtain ⟨s, t, hs, hnot⟩ := List.eq_append_cons_of_mem h
  have hl : l = s ++ 0 :: (t ++ l.drop n) := by
    rw [← List.cons_append, ← List.append_assoc, ← hs, List.take_append_drop]
  rw [hs, cString_append_zero hnot]
  conv_lhs => rw [hl]
  exact cString_append_zero hnot

/-- What the line carries is all that the correlator reads. -/
theorem sameContent_of_sameFields {e ev : SecurityEvent} (h : SameFields e ev)
    (hrec : Recordable ev) : SameContent ev e := by
  refine ⟨h.type.symm, h.comm.symm, ?_, ?_, ?_, ?_⟩
  · have hpids : e.anc.toList.map Ancestor.pid = ev.anc.toList.map Ancestor.pid := by
      have hnames := congrArg (List.map Prod.fst) h.ancestors
      rwa [List.map_map, List.map_map] at hnames
    rw [ancestorSet, ancestorSet, h.ppid, hpids]
  · intro htype
    have hpath := h.path htype
    have hnul := hrec.path htype
    have hread : 0 ∈ e.u.toList.take PQSEC_FILENAME_LEN := by
      by_contra hnot
      have hlt := length_pathStr_lt hnul
      rw [← hpath, pathStr, cString_eq_self hnot, List.length_take, e.u.length_toList] at hlt
      exact absurd hlt (by decide)
    rw [SecurityEvent.filePath, SecurityEvent.filePath, cString_take hnul, cString_take hread]
    exact hpath.symm
  · intro htype
    exact (h.fileopen htype).1.symm
  · intro htype
    exact ⟨(h.connect htype).1.symm, (h.connect htype).2.1.symm⟩

/-- The stamp is not one of the fields. -/
theorem sameFields_stamp {e ev : SecurityEvent} {t : UInt64} :
    SameFields { e with ts_ns := t } ev ↔ SameFields e ev :=
  ⟨fun h => ⟨h.type, h.pid, h.ppid, h.comm, h.ancestors, h.path, h.connect, h.fileopen⟩,
    fun h => ⟨h.type, h.pid, h.ppid, h.comm, h.ancestors, h.path, h.connect, h.fileopen⟩⟩

section Lists

variable {es evs : List SecurityEvent} (hrec : ∀ ev ∈ evs, Recordable ev)

include hrec

theorem sameContent_of_forall₂ (h : List.Forall₂ SameFields es evs) :
    List.Forall₂ SameContent evs es := by
  induction h with
  | nil => exact List.Forall₂.nil
  | @cons e ev _ evs hev _ ih =>
    refine List.Forall₂.cons (sameContent_of_sameFields hev (hrec ev List.mem_cons_self)) ?_
    exact ih fun x hx => hrec x (List.mem_cons_of_mem ev hx)

/-- What is read back of plain events has their fields. -/
theorem sameFields_of_readBack (hread : List.Forall₂ ReadBack es evs)
    (hplain : ∀ ev ∈ evs, Plain ev) : List.Forall₂ SameFields es evs := by
  induction hread with
  | nil => exact List.Forall₂.nil
  | @cons e ev _ evs hev _ ih =>
    obtain ⟨e₀, n, t, hparse, rfl⟩ := hev
    obtain ⟨e₁, hline, hsame, -⟩ :=
      parseLine_formatLine (hrec ev List.mem_cons_self) (hplain ev List.mem_cons_self)
    have heq : e₁ = e₀ := by
      rw [hline n] at hparse
      injection hparse with hopt
      injection hopt with hentry
      injection hentry
    refine List.Forall₂.cons (sameFields_stamp.mpr (heq ▸ hsame)) ?_
    exact ih (fun x hx => hrec x (List.mem_cons_of_mem ev hx))
      fun x hx => hplain x (List.mem_cons_of_mem ev hx)

theorem plain_of_readBack (hread : List.Forall₂ ReadBack es evs)
    (hsame : List.Forall₂ SameFields es evs) : ∀ ev ∈ evs, Plain ev := by
  induction hread with
  | nil => simp
  | @cons e ev _ evs hev _ ih =>
    obtain ⟨e₀, n, t, hparse, rfl⟩ := hev
    obtain ⟨hfields, hrest⟩ := List.forall₂_cons.mp hsame
    intro x hx
    rcases List.mem_cons.mp hx with rfl | hx
    · exact plain_of_sameFields (hrec x List.mem_cons_self) hparse (sameFields_stamp.mp hfields)
    · exact ih (fun y hy => hrec y (List.mem_cons_of_mem ev hy)) hrest x hx

end Lists

/-! ## 3. When a recording replays alike -/

section

variable {L : LlmClient} {llm : L.State} {stamp : Bytes} {path : String}
  {log : List SecurityEvent}

/-- The replay's times are those computed from the captured ones. -/
theorem ReplaysAlike.sameWindows (hstamp : 10 ∉ stamp)
    (h : ReplaysAlike L llm stamp path log) :
    SameWindows defaultWindow ((recorded log).map SecurityEvent.ts_ns)
      (replayTimes 1000000000 0 ((recorded log).map SecurityEvent.ts_ns)) := by
  rw [← (replayed_times hstamp h.read).2]
  exact h.windows

/-- The events come back, so each is one that its line carries. -/
theorem ReplaysAlike.plain (hstamp : 10 ∉ stamp) (hrec : ∀ ev ∈ recorded log, Recordable ev)
    (h : ReplaysAlike L llm stamp path log) : ∀ ev ∈ recorded log, Plain ev :=
  plain_of_readBack hrec (replayed_times hstamp h.read).1 h.events

theorem parse_recordAll_eq_none (path : String) (hstamp : 10 ∉ stamp)
    (hrec : ∀ ev ∈ recorded log, Recordable ev) (hplain : ∀ ev ∈ recorded log, Plain ev) :
    (parse (recordAll stamp log) path).2 = none := by
  rw [parse_recordAll hstamp]
  refine parse_recordedLines_eq_none path 1 0 ?_
  intro ev hev
  obtain ⟨e, he, -⟩ := parseLine_formatLine (hrec ev hev) (hplain ev hev)
  exact ⟨e, he⟩

/-- Where every line carries its event and the two clocks agree on every window, nothing differs. -/
theorem replaysAlike_of_sameWindows (hstamp : 10 ∉ stamp)
    (hrec : ∀ ev ∈ recorded log, Recordable ev) (hplain : ∀ ev ∈ recorded log, Plain ev)
    (hwin : SameWindows defaultWindow ((recorded log).map SecurityEvent.ts_ns)
      (replayTimes 1000000000 0 ((recorded log).map SecurityEvent.ts_ns))) :
    ReplaysAlike L llm stamp path log := by
  have hnone := parse_recordAll_eq_none path hstamp hrec hplain
  obtain ⟨hread, htimes⟩ := replayed_times hstamp hnone
  rw [← htimes] at hwin
  have hevents := sameFields_of_readBack hrec hread hplain
  refine ⟨hnone, hevents, hwin, ?_⟩
  rw [runFile, hits_runEntries]
  refine hits_retimed ?_ hwin rfl (Correlator.Retimed.init defaultWindow 3)
  exact sameContent_of_forall₂ hrec hevents

end

/-! ## 4. The windows in natural numbers -/

/-- What a replay makes of the gap between two events written one after the other. -/
def replayGap (a b : ℕ) : ℕ :=
  (if a ≠ 0 ∧ a + 10000000 < b then (b - a) / 1000000 * 1000000 else 0) + 1000000

/-- And of a stretch of the recording, from its first event to its last. -/
def replaySpan : List UInt64 → ℕ
  | a :: b :: l => replayGap a.toNat b.toNat + replaySpan (b :: l)
  | _ => 0

/-- In every stretch of the recording, the first event is in the window that ends at the last by the
captured times exactly when it is by the sum of what the replay makes of the gaps. -/
def KeepsWindows (ts : List UInt64) : Prop :=
  ∀ a mid b, a :: (mid ++ [b]) <:+: ts →
    (b.toNat ≤ a.toNat + 60000000000 ↔ replaySpan (a :: (mid ++ [b])) ≤ 60000000000)

/-- The times never decrease, and stay clear of the end of the 64 bits. -/
structure SteadyTimes (ts : List UInt64) : Prop where
  ordered : ts.Pairwise fun a b => a.toNat ≤ b.toNat
  noWrap : ∀ t ∈ ts, t.toNat + 1000000 * ts.length + 61000000000 < 2 ^ 64

theorem replayGap_le (a b : ℕ) : replayGap a b ≤ b - a + 1000000 := by
  unfold replayGap
  split
  · omega
  · omega

theorem replaySpan_append (l : List UInt64) (a : UInt64) (l' : List UInt64) :
    replaySpan (l ++ a :: l') = replaySpan (l ++ [a]) + replaySpan (a :: l') := by
  induction l with
  | nil => simp [replaySpan]
  | cons x l ih =>
    cases l with
    | nil => simp [replaySpan]
    | cons y l =>
      simp only [List.cons_append, replaySpan] at ih ⊢
      rw [ih, Nat.add_assoc]

/-- Below the end of the 64 bits, the clock's step is that gap. -/
theorem toNat_replayStep {a b : UInt64} (h : a.toNat ≤ b.toNat)
    (hwrap : b.toNat + 11000000 < 2 ^ 64) : (replayStep a b).toNat = replayGap a.toNat b.toNat := by
  have hmillion : (1000000 : UInt64).toNat = 1000000 := rfl
  have hten : (a + 10000000).toNat = a.toNat + 10000000 := by
    rw [UInt64.toNat_add]
    exact Nat.mod_eq_of_lt (by change a.toNat + 10000000 < _; omega)
  have hsub : (b - a).toNat = b.toNat - a.toNat :=
    UInt64.toNat_sub_of_le _ _ (UInt64.le_iff_toNat_le.mpr h)
  have hiff : (a ≠ 0 ∧ b > a + 10000000) ↔ (a.toNat ≠ 0 ∧ a.toNat + 10000000 < b.toNat) := by
    rw [gt_iff_lt, UInt64.lt_iff_toNat_lt, hten, Ne, Ne, ← UInt64.toNat_inj]
    rfl
  unfold replayStep replayGap delayMs
  by_cases hgap : a ≠ 0 ∧ b > a + 10000000
  · have hfloor : (1000000 * ((b - a) / 1000000)).toNat =
        (b.toNat - a.toNat) / 1000000 * 1000000 := by
      rw [UInt64.toNat_mul, UInt64.toNat_div, hsub, hmillion, Nat.mod_eq_of_lt (by omega),
        Nat.mul_comm]
    rw [if_pos hgap, if_pos (hiff.mp hgap)]
    simp only []
    rw [UInt64.toNat_add, hfloor, hmillion, Nat.mod_eq_of_lt (by omega)]
  · rw [if_neg hgap, if_neg (hiff.not.mp hgap)]
    rfl

theorem length_replayTimes (vclock last_ts : UInt64) (ts : List UInt64) :
    (replayTimes vclock last_ts ts).length = ts.length := by
  induction ts generalizing vclock last_ts with
  | nil => rfl
  | cons t ts ih => rw [replayTimes, List.length_cons, ih, List.length_cons]

/-- The replay's time of an event is the sum of the gaps up to it. -/
theorem toNat_replayTimes {ts : List UInt64} {vclock last_ts : UInt64}
    (hordered : (last_ts :: ts).Pairwise fun a b => a.toNat ≤ b.toNat)
    (hwrap : ∀ t ∈ ts, t.toNat + 11000000 < 2 ^ 64 ∧
      vclock.toNat + (t.toNat - last_ts.toNat) + 1000000 * ts.length < 2 ^ 64)
    {k : ℕ} {x : UInt64} (hx : (replayTimes vclock last_ts ts)[k]? = some x) :
    x.toNat = vclock.toNat + replaySpan (last_ts :: ts.take (k + 1)) := by
  induction ts generalizing vclock last_ts k with
  | nil => simp [replayTimes] at hx
  | cons t ts ih =>
    obtain ⟨hlast, hts⟩ := List.pairwise_cons.mp hordered
    have hle : last_ts.toNat ≤ t.toNat := hlast t List.mem_cons_self
    obtain ⟨hfit, hsum⟩ := hwrap t List.mem_cons_self
    rw [List.length_cons] at hsum
    have hgap := replayGap_le last_ts.toNat t.toNat
    have hstep : (vclock + replayStep last_ts t).toNat =
        vclock.toNat + replayGap last_ts.toNat t.toNat := by
      rw [UInt64.toNat_add, toNat_replayStep hle hfit]
      exact Nat.mod_eq_of_lt (by omega)
    rw [replayTimes] at hx
    cases k with
    | zero =>
      rw [List.getElem?_cons_zero, Option.some.injEq] at hx
      rw [← hx, hstep]
      simp [replaySpan]
    | succ k =>
      rw [List.getElem?_cons_succ] at hx
      rw [ih hts ?_ hx, hstep, List.take_succ_cons, replaySpan, Nat.add_assoc]
      intro t' ht'
      obtain ⟨hfit', hsum'⟩ := hwrap t' (List.mem_cons_of_mem t ht')
      have hle' : t.toNat ≤ t'.toNat := (List.pairwise_cons.mp hts).1 t' ht'
      rw [List.length_cons] at hsum'
      exact ⟨hfit', by omega⟩

theorem replaySpan_le {a : UInt64} {l : List UInt64} {last : ℕ}
    (hordered : (a :: l).Pairwise fun a b => a.toNat ≤ b.toNat)
    (hlast : ∀ t ∈ a :: l, t.toNat ≤ last) :
    replaySpan (a :: l) + a.toNat ≤ last + 1000000 * l.length := by
  induction l generalizing a with
  | nil => simpa [replaySpan] using hlast a List.mem_cons_self
  | cons b l ih =>
    obtain ⟨ha, hl⟩ := List.pairwise_cons.mp hordered
    have hab : a.toNat ≤ b.toNat := ha b List.mem_cons_self
    have hgap := replayGap_le a.toNat b.toNat
    have hrest := ih hl fun t ht => hlast t (List.mem_cons_of_mem a ht)
    rw [replaySpan, List.length_cons]
    omega

/-- The replay's time of an event is the sum of the gaps up to it, and its window does not wrap. -/
theorem replayTimes_at {pre post : List UInt64} {a x : UInt64}
    (h : SteadyTimes (pre ++ a :: post))
    (hx : (replayTimes 1000000000 0 (pre ++ a :: post))[pre.length]? = some x) :
    x.toNat = 1000000000 + replaySpan (0 :: (pre ++ [a])) ∧ x.toNat + 60000000000 < 2 ^ 64 := by
  have hstart : (1000000000 : UInt64).toNat = 1000000000 := rfl
  have hzero : (0 : UInt64).toNat = 0 := rfl
  have hordered : ((0 : UInt64) :: (pre ++ a :: post)).Pairwise fun a b => a.toNat ≤ b.toNat :=
    List.pairwise_cons.mpr ⟨by simp, h.ordered⟩
  have hwrap : ∀ t ∈ pre ++ a :: post, t.toNat + 11000000 < 2 ^ 64 ∧
      (1000000000 : UInt64).toNat + (t.toNat - (0 : UInt64).toNat) +
        1000000 * (pre ++ a :: post).length < 2 ^ 64 := by
    intro t ht
    have hfit := h.noWrap t ht
    rw [hstart, hzero]
    omega
  have htake : (pre ++ a :: post).take (pre.length + 1) = pre ++ [a] := by
    rw [List.take_length_add_append]
    rfl
  have htime := toNat_replayTimes hordered hwrap hx
  rw [htake, hstart] at htime
  refine ⟨htime, ?_⟩
  have hpre : ((0 : UInt64) :: (pre ++ [a])).Pairwise fun a b => a.toNat ≤ b.toNat := by
    refine hordered.sublist (List.Sublist.cons_cons 0 ?_)
    exact (List.append_sublist_append_left pre).mpr (List.singleton_sublist.mpr List.mem_cons_self)
  have hlast : ∀ t ∈ (0 : UInt64) :: (pre ++ [a]), t.toNat ≤ a.toNat := by
    intro t ht
    rcases List.mem_cons.mp ht with rfl | ht
    · simp
    · rcases List.mem_append.mp ht with ht | ht
      · exact (List.pairwise_append.mp h.ordered).2.2 t ht a List.mem_cons_self
      · rw [List.mem_singleton.mp ht]
  have hspan := replaySpan_le hpre hlast
  have hfit := h.noWrap a (by simp)
  simp only [List.length_append, List.length_cons, List.length_nil] at hspan hfit
  omega

/-- The distance of two events in the replay is what it makes of the stretch between them. -/
theorem replayTimes_stretch {pre mid post : List UInt64} {a b x y : UInt64}
    (h : SteadyTimes (pre ++ a :: (mid ++ b :: post)))
    (hx : (replayTimes 1000000000 0 (pre ++ a :: (mid ++ b :: post)))[pre.length]? = some x)
    (hy : (replayTimes 1000000000 0
      (pre ++ a :: (mid ++ b :: post)))[pre.length + mid.length + 1]? = some y) :
    y.toNat = x.toNat + replaySpan (a :: (mid ++ [b])) := by
  have hsplit : pre ++ a :: (mid ++ b :: post) = (pre ++ a :: mid) ++ b :: post := by simp
  have hlen : pre.length + mid.length + 1 = (pre ++ a :: mid).length := by
    rw [List.length_append, List.length_cons, Nat.add_assoc]
  have hxs := (replayTimes_at h hx).1
  rw [hsplit] at h hy
  rw [hlen] at hy
  have hys := (replayTimes_at h hy).1
  rw [List.append_assoc, List.cons_append, ← List.cons_append, replaySpan_append,
    List.cons_append] at hys
  omega

theorem expired_eq_iff {now t now' t' : UInt64} (h : t.toNat + 60000000000 < 2 ^ 64)
    (h' : t'.toNat + 60000000000 < 2 ^ 64) :
    expired defaultWindow now t = expired defaultWindow now' t' ↔
      (now.toNat ≤ t.toNat + 60000000000 ↔ now'.toNat ≤ t'.toNat + 60000000000) := by
  have hW : defaultWindow.toNat = 60000000000 := rfl
  rw [Bool.eq_iff_iff, expired_iff (by rwa [hW]), expired_iff (by rwa [hW]), hW]
  omega

/-- **The drift.**  On times that are steady the two clocks agree on every window exactly when the
sums of the gaps do. -/
theorem sameWindows_replayTimes_iff {ts : List UInt64} (h : SteadyTimes ts) :
    SameWindows defaultWindow ts (replayTimes 1000000000 0 ts) ↔ KeepsWindows ts := by
  have hfit : ∀ t ∈ ts, t.toNat + 60000000000 < 2 ^ 64 := by
    intro t ht
    have hwrap := h.noWrap t ht
    omega
  constructor
  · rintro hwin a mid b ⟨pre, post, rfl⟩
    rw [List.append_assoc, List.cons_append, List.append_assoc, List.singleton_append] at *
    have hlen := length_replayTimes 1000000000 0 (pre ++ a :: (mid ++ b :: post))
    simp only [List.length_append, List.length_cons] at hlen
    obtain ⟨x, hx⟩ : ∃ x, (replayTimes 1000000000 0
        (pre ++ a :: (mid ++ b :: post)))[pre.length]? = some x :=
      ⟨_, List.getElem?_eq_getElem (by omega)⟩
    obtain ⟨y, hy⟩ : ∃ y, (replayTimes 1000000000 0
        (pre ++ a :: (mid ++ b :: post)))[pre.length + mid.length + 1]? = some y :=
      ⟨_, List.getElem?_eq_getElem (by omega)⟩
    have hboth := hwin pre.length (pre.length + mid.length + 1) a x b y (by omega) (by simp) hx
      (by simp [Nat.add_assoc]) hy
    rw [expired_eq_iff (hfit a (by simp)) (replayTimes_at h hx).2, replayTimes_stretch h hx hy]
      at hboth
    omega
  · intro hkeeps i j t t' now now' hij ht ht' hnow hnow'
    obtain ⟨pre, rest, rfl, rfl⟩ := Lists.exists_append_of_getElem? ht
    rw [expired_eq_iff (hfit t (by simp)) (replayTimes_at h ht').2]
    rcases Nat.eq_or_lt_of_le hij with rfl | hlt
    · -- an event and itself
      obtain rfl : t = now := Option.some.inj (ht.symm.trans hnow)
      obtain rfl : t' = now' := Option.some.inj (ht'.symm.trans hnow')
      omega
    · obtain ⟨k, rfl⟩ := Nat.exists_eq_add_of_lt hlt
      rw [List.getElem?_append_right (by omega), Nat.add_assoc, Nat.add_sub_cancel_left,
        List.getElem?_cons_succ] at hnow
      obtain ⟨mid, post, rfl, rfl⟩ := Lists.exists_append_of_getElem? hnow
      have hstretch := hkeeps t mid now ⟨pre, post, by simp⟩
      rw [replayTimes_stretch h ht' hnow']
      omega

/-! ## 5. The recording -/

/-- A downloader at one second, and what it fetched, run by the same shell at `ts`. -/
def chainLog (ts : UInt64) : List SecurityEvent :=
  [SecurityEvent.synExecve (lit "curl") (lit "/usr/bin/curl") 7 50 1000000000,
    SecurityEvent.synExecve (lit "x") (lit "/tmp/x") 8 50 ts]

theorem recorded_eq_self {log : List SecurityEvent} (h : ∀ ev ∈ log, IsRecorded ev) :
    recorded log = log :=
  List.filter_eq_self.mpr fun ev hev =>
    (List.mem_filter.mp (mem_recorded.mpr ⟨hev, h ev hev⟩)).2

theorem carried_chainLog (ts : UInt64) : ∀ ev ∈ chainLog ts, Recordable ev ∧ Plain ev := by
  let e := SecurityEvent.synExecve (lit "x") (lit "/tmp/x") 8 50 0
  have hcomm : e.commStr ≠ [] ∧ 0 ∈ e.comm.toList := by decide
  have hpath : 0 ∈ e.u.toList.take PQSEC_FILENAME_LEN := by decide
  have hfile : pathStr e ≠ [] := by decide
  have hplain : Plain e := ⟨by decide, fun _ => by decide, by decide⟩
  simp only [chainLog, List.mem_cons, List.not_mem_nil, or_false, forall_eq_or_imp, forall_eq]
  exact ⟨⟨recordable_synExecve (by decide) (by decide) (by decide), by decide,
      fun _ => by decide, by decide⟩,
    recordable_synExecve hcomm hpath hfile, hplain.comm, hplain.path, hplain.ancestors⟩

theorem times_chainLog (ts : UInt64) :
    (recorded (chainLog ts)).map SecurityEvent.ts_ns = [1000000000, ts] := by
  rw [recorded_eq_self fun ev hev => ((carried_chainLog ts) ev hev).1.type]
  rfl

theorem rules_of_sameHit {x y : Option (List CorrelationHit)}
    (h : Option.Rel (List.Forall₂ SameHit) x y) :
    x.map (List.map CorrelationHit.rule) = y.map (List.map CorrelationHit.rule) := by
  cases h with
  | none => rfl
  | some hl =>
    refine congrArg some ?_
    induction hl with
    | nil => rfl
    | cons hch _ ih => rw [List.map_cons, List.map_cons, hch.rule, ih]

end PqcEdr.Analyzer
