/-
# The daemon always has a result

`classify_event` reads strings up to a NUL and follows a reference into a map that it has just
swept, so there are payloads on which it has no defined result.  No agent sends one: the texts of
an event end in their fields whatever the mode (`handles_terminated`), a notice's does, and an
event that has not itself expired is answered.  And nothing but what an agent sealed gets as far
as `classify_event`.

* `classifyRun_defined`: any stream of such events has results.
* `daemon_defined`: so the loop of `main` does, whatever the network and the agents' hosts do.
-/
import PqcEdr.Agent.Sources
import PqcEdr.Analyzer.EndToEnd

namespace PqcEdr.Analyzer

open Crypto Agent

/-! ## 1. One event -/

/-- The window of the event's time ends before the clock does, in the year 584 of its boot. -/
def InTime (ev : SecurityEvent) : Prop := ev.ts_ns.toNat + defaultWindow.toNat < 2 ^ 64

instance instDecidableInTime (ev : SecurityEvent) : Decidable (InTime ev) :=
  inferInstanceAs (Decidable (_ < _))

/-- What is asked of an event that the daemon opens. -/
structure Answerable (ev : SecurityEvent) : Prop where
  terminated : Terminated ev
  inTime : ev.type ≠ PQSEC_EVT_AGENT_DROP → InTime ev

section

variable (L : LlmClient) {ev : SecurityEvent} (llm : L.State) {c : Correlator}

theorem fieldsEnd_of_terminated (h : Terminated ev) : FieldsEnd L ev llm c :=
  ⟨fun hexec => h.path (Or.inl hexec), fun hfile _ => h.path (Or.inr hfile), fun _ => h.comm⟩

theorem classifyEventReads_of_terminated (h : Terminated ev) :
    classifyEventReads ev L llm c = .ok (classifyEvent L ev llm c) :=
  classifyEventReads_staysIff.inside (fieldsEnd_iff.mp (fieldsEnd_of_terminated L llm h))

/-- An answerable event has a result, and the window stays what it was. -/
theorem classifyEventReads_defined (h : Answerable ev) (hW : c.window_ns = defaultWindow) :
    ∃ r, classifyEventReads ev L llm c = .ok (some r) ∧ r.corr.window_ns = defaultWindow := by
  rw [classifyEventReads_of_terminated L llm h.terminated]
  by_cases hdrop : ev.type = PQSEC_EVT_AGENT_DROP
  · unfold classifyEvent
    rw [if_pos hdrop]
    exact ⟨_, rfl, hW⟩
  · have htime : ev.ts_ns.toNat + c.window_ns.toNat < 2 ^ 64 := by
      rw [hW]
      exact h.inTime hdrop
    obtain ⟨hit, c', hobs⟩ := observe_defined c htime
    have hwindow := (observe_steps hobs).window
    unfold classifyEvent
    rw [if_neg hdrop, hobs]
    exact ⟨_, rfl, by rw [judge_trace.2, hwindow, hW]⟩

end

/-- Any stream of answerable events has results. -/
theorem classifyRun_defined (L : LlmClient) {evs : List SecurityEvent} (llm : L.State)
    {c : Correlator} (h : ∀ ev ∈ evs, Answerable ev) (hW : c.window_ns = defaultWindow) :
    ∃ cs, classifyRun L evs llm c = some cs := by
  induction evs generalizing llm c with
  | nil => exact ⟨[], rfl⟩
  | cons ev evs ih =>
    obtain ⟨r, hr, hwindow⟩ := classifyEventReads_defined L llm (h ev List.mem_cons_self) hW
    obtain ⟨cs, hcs⟩ := ih r.llm (fun e he => h e (List.mem_cons_of_mem _ he)) hwindow
    refine ⟨r :: cs, ?_⟩
    rw [classifyRun, hr]
    dsimp only
    rw [hcs]
    rfl

/-! ## 2. What a queue seals -/

theorem answerable_makeDropNotice (s : ChannelSink) (pid : UInt32)
    (now_ns dropped dropped_total : UInt64) :
    Answerable (s.makeDropNotice pid now_ns dropped dropped_total) := by
  refine ⟨⟨zero_mem_strncpy (by decide) (lit "agent"), fun htype => ?_⟩, fun h => absurd rfl h⟩
  rcases htype with h | h
  · exact absurd (show PQSEC_EVT_AGENT_DROP = PQSEC_EVT_EXECVE from h) (by decide)
  · exact absurd (show PQSEC_EVT_AGENT_DROP = PQSEC_EVT_FILE_OPEN from h) (by decide)

theorem log_taken (S : System) : S.taken.log = S.log := by
  unfold System.taken
  split <;> rfl

/-- Every record of the log is an accepted event or a notice. -/
theorem log_answerable {A : Gcm} {fd : Outgoing} {sender : RecordSender} {capacity : ℕ}
    {S : System} (h : System.Reachable A fd sender capacity S) (hpushed : ∀ ev ∈ S.pushed, Answerable ev) :
    ∀ r ∈ S.log, Answerable r.event := by
  have hnotices : ∀ r ∈ S.log, r.isNotice = true → Answerable r.event := by
    clear hpushed
    induction h with
    | refl =>
      intro r hr
      cases hr
    | @tail S S' _ hstep ih =>
      cases hstep with
      | handle | destroy | eventFails | noticeFails | setBroken => exact ih
      | take =>
        rw [log_taken]
        exact ih
      | event hpc hsend =>
        intro r hr hnotice
        rcases List.mem_append.mp hr with hold | hnew
        · exact ih r hold hnotice
        · obtain rfl := List.mem_singleton.mp hnew
          cases hnotice
      | notice pid now_ns hpc hsend =>
        intro r hr hnotice
        rcases List.mem_append.mp hr with hold | hnew
        · exact ih r hold hnotice
        · obtain rfl := List.mem_singleton.mp hnew
          exact answerable_makeDropNotice _ _ _ _ _
  intro r hr
  cases hnotice : r.isNotice with
  | true => exact hnotices r hr hnotice
  | false =>
    refine hpushed _ ?_
    rw [h.fifo.pushed_eq, List.append_assoc, List.append_assoc]
    exact List.mem_append_left _
      (List.mem_map_of_mem (List.mem_filter.mpr ⟨hr, by rw [hnotice]; rfl⟩))

/-- What was sealed of a queue that holds such events. -/
theorem sealed_answerable {A : Gcm} {fd : Outgoing} {sender : RecordSender} {capacity : ℕ}
    {S : System} (h : System.Reachable A fd sender capacity S) (hpushed : ∀ ev ∈ S.pushed, Answerable ev)
    {pending : List SecurityEvent} (hpending : Interrupted S pending) :
    ∀ ev ∈ S.log.map (·.event) ++ pending, Answerable ev := by
  intro ev hev
  rcases List.mem_append.mp hev with hlog | hpend
  · obtain ⟨r, hr, rfl⟩ := List.mem_map.mp hlog
    exact log_answerable h hpushed r hr
  · rcases hpending with rfl | ⟨ev', rfl, hlost | ⟨pid, now_ns, dropped, dropped_total, rfl⟩⟩
    · cases hpend
    · refine hpushed ev ?_
      rw [h.fifo.pushed_eq, hlost, List.append_assoc, List.append_assoc]
      exact List.mem_append_right _ (List.mem_append_left _ hpend)
    · rw [List.mem_singleton.mp hpend]
      exact answerable_makeDropNotice _ _ _ _ _

/-! ## 3. The daemon -/

/-- The queue's events come from one of the agent's modes, on a kernel that ends the names of its
tasks, before its clock ends. -/
def FromSource (S : System) : Prop :=
  ∃ src : Source, src.NamesEnd ∧ (∀ ev ∈ src.run.1, InTime ev) ∧ ∀ ev ∈ S.pushed, ev ∈ src.run.1

theorem FromSource.answerable {S : System} (h : FromSource S) : ∀ ev ∈ S.pushed, Answerable ev := by
  obtain ⟨src, hnames, htime, hpushed⟩ := h
  intro ev hev
  have hmem := hpushed ev hev
  exact ⟨handles_terminated hnames hmem, fun _ => htime ev hmem⟩

/-- **The daemon is defined.**  Any number of agents in any of their modes, on hosts where
programs do what they like; any bytes from the network; any client: every event that the daemon
opens is read inside its fields and answered, so the loop of `main` has a result. -/
theorem daemon_defined {P : Primitives} {A : Gcm} {agent analyzer : Identity} {F : Fleet}
    (h : F.Sound P A agent analyzer)
    (hsource : ∀ i c channel, F.network.clients[i]? = some c → c.proc = .ret channel →
      FromSource (F.sinks i))
    (L : LlmClient) (time : ℕ → Int64) (once : Bool) (llm : L.State) :
    ∃ d, mainLoop P A analyzer time once F.accepted (Analysis.start llm) = some d := by
  have hstream : ∀ ev ∈ eventStream P A analyzer once F.accepted, Answerable ev := by
    intro ev hev
    rw [eventStream_eq] at hev
    obtain ⟨x, hx, hopened⟩ := List.mem_flatMap.mp hev
    obtain ⟨k, hk⟩ := List.mem_iff_getElem?.mp (connections_served_subset once F.accepted hx)
    rcases hcall : (handshakeOver P analyzer x.1).call x.2 with ⟨e | ch, conn'⟩
    · rw [openedOn, hcall] at hopened
      cases hopened
    · obtain ⟨i, ⟨_, c, _, _, _, -, hi, -, hdone⟩, hbrings⟩ := h.exists_client hk hcall
      rw [openedOn_of_ok hcall] at hopened
      obtain ⟨q, -, hqret, -⟩ :=
        hdone.exists_run h.reachable.invariant (List.mem_of_getElem? hi)
      exact sealed_answerable (h.sinks hi hqret) (hsource i c _ hi hqret).answerable
        (h.interrupted i) ev (hbrings.sealed.subset hopened)
  obtain ⟨cs, hcs⟩ := classifyRun_defined L llm (c := Correlator.fresh) hstream rfl
  rcases hrun : mainLoop P A analyzer time once F.accepted (Analysis.start llm) with _ | d
  · have hnone := (mainLoop_eq_none_iff P A analyzer time once F.accepted _).mp hrun
    rw [show classifyRun L _ (Analysis.start llm).llm (Analysis.start llm).corr = some cs
      from hcs] at hnone
    cases hnone
  · exact ⟨d, rfl⟩

/-- A replay file with the event of the honest fleet. -/
theorem fromSource_honestFleet : FromSource (oneSent honestGcm ⟨[], []⟩ honestSender) := by
  refine ⟨.replay (lit "execve 7 6 bash /tmp/x") "x" fun _ => 0, trivial, ?_, ?_⟩
  · decide +kernel
  · have hpushed : (oneSent honestGcm ⟨[], []⟩ honestSender).pushed = [oneEvent] := by decide +kernel
    have hrun : (Source.replay (lit "execve 7 6 bash /tmp/x") "x" fun _ => 0).run.1 = [oneEvent] := by
      decide +kernel
    rw [hpushed, hrun]
    exact fun _ h => h

theorem daemon_defined_honestFleet : ∃ d, mainLoop standIn honestGcm analyzerId (fun _ => 0) false
    honestFleet.accepted (Analysis.start (L := constClient {}) ()) = some d := by
  refine daemon_defined honestFleet_sound ?_ (constClient {}) (fun _ => 0) false ()
  intro i _ _ _ _
  rw [(honestFleet_sinks i).1]
  exact fromSource_honestFleet

end PqcEdr.Analyzer
