/-
# Control bytes on their way to the log

The comment on `printable` says that control bytes are replaced at the source, so that a name
cannot forge a line of the log.  `event_summary` does that for the fields it prints, and four
routes go around it: the process tree, the path in the reason of a sensitive access, the writer
and the file in the reason of a write-exec chain, and the process name in the reason of a beacon.

* `snprintf_clean_iff`, `eventSummary_clean_iff`, `observe_reason_clean_iff`: each text, in terms
  of what it quotes.
* `log_lines_clean_iff`: all of them together.  The model's own words are not the code's, so the
  client is taken to be a quiet one, whose words are clean.
-/
import PqcEdr.Analyzer.Beacon
import PqcEdr.Analyzer.Chains
import PqcEdr.Analyzer.Pipeline

namespace PqcEdr.Analyzer

/-! ## 1. Clean text -/

/-- No byte below 0x20 and no 0x7f. -/
def Clean (text : Bytes) : Prop := ∀ c ∈ text, isControl c = false

instance instDecidableClean (text : Bytes) : Decidable (Clean text) :=
  inferInstanceAs (Decidable (∀ c ∈ text, isControl c = false))

@[simp] theorem clean_nil : Clean [] := by simp [Clean]

@[simp] theorem clean_append {a b : Bytes} : Clean (a ++ b) ↔ Clean a ∧ Clean b := by
  simp [Clean, or_imp, forall_and]

@[simp] theorem clean_flatten {parts : List Bytes} :
    Clean parts.flatten ↔ ∀ part ∈ parts, Clean part := by
  simp only [Clean, List.mem_flatten]
  constructor
  · intro h part hpart c hc
    exact h c ⟨part, hpart, hc⟩
  · rintro h c ⟨part, hpart, hc⟩
    exact h part hpart c hc

theorem Clean.of_subset {a b : Bytes} (h : Clean b) (hsub : a ⊆ b) : Clean a :=
  fun c hc => h c (hsub hc)

theorem isControl_eq_false {c : UInt8} (hlow : 32 ≤ c.toNat) (hne : c.toNat ≠ 127) :
    isControl c = false := by
  have h : ¬ c = 0x7f := by
    rintro rfl
    exact hne rfl
  simp [isControl, UInt8.lt_iff_toNat_lt, hlow, h]

@[simp] theorem clean_decimal (n : ℕ) : Clean (decimal n) := by
  intro c hc
  obtain ⟨hlow, hhigh⟩ := mem_decimal hc
  exact isControl_eq_false (by omega) (by omega)

@[simp] theorem clean_fixed (k : ℕ) (x : ℕ × ℕ) : Clean (fixed k x) := by
  have hdot : Clean (lit ".") := by decide
  have hzeros : ∀ m, Clean (List.replicate m 48) := by
    intro m c hc
    rw [List.eq_of_mem_replicate hc]
    decide
  simp only [fixed]
  split
  · simp
  · simp [hdot, hzeros]

@[simp] theorem clean_fixed_double (k : ℕ) (x : Double) : Clean (x.fixed k) := by
  have hsign : ∀ negative : Bool, Clean (if negative then lit "-" else []) := by decide
  have hinf : Clean (lit "inf") := by decide
  have hnan : Clean (lit "nan") := by decide
  cases x <;> simp [Double.fixed, hsign, hinf, hnan]

@[simp] theorem clean_inetNtop (daddr : UInt32) : Clean (inetNtop daddr) := by
  have hdot : Clean (lit ".") := by decide
  simp [inetNtop, toLe, hdot]

@[simp] theorem clean_printable (s : Bytes) (maxLen : ℕ) : Clean (printable s maxLen) := by
  intro c hc
  obtain ⟨b, -, rfl⟩ := List.mem_map.mp hc
  by_cases hb : isControl b = true
  · simp only [hb, if_true]
    decide
  · simp [hb]

/-- Cutting to the buffer keeps a clean text clean. -/
theorem clean_snprintf {size : ℕ} {parts : List Bytes} (h : ∀ part ∈ parts, Clean part) :
    Clean (snprintf size parts) :=
  (clean_flatten.mpr h).of_subset (List.take_subset _ _)

/-- What fits the buffer is printed; behind it, clean parts may be cut anywhere. -/
theorem snprintf_clean_iff (size : ℕ) (front rest : List Bytes)
    (hfits : front.flatten.length < size) (hrest : ∀ part ∈ rest, Clean part) :
    Clean (snprintf size (front ++ rest)) ↔ ∀ part ∈ front, Clean part := by
  rw [snprintf, List.flatten_append, List.take_append, List.take_of_length_le (by omega),
    clean_append, clean_flatten]
  refine and_iff_left ?_
  exact (clean_flatten.mpr hrest).of_subset (List.take_subset _ _)

/-! ## 2. The summary -/

theorem summaryText_clean (ev : SecurityEvent) : Clean (summaryText ev) := by
  have hlits : ∀ s ∈ ["execve comm=", " file=", "connect comm=", " dst=", ":", "fileopen comm=",
      " ", "ino=", "read-sensitive", "write", "agent-drop dropped=", " total=", " sent=",
      "unknown type="], Clean (lit s) := by decide
  simp only [List.forall_mem_cons] at hlits
  simp only [summaryText]
  split_ifs <;> refine clean_snprintf ?_ <;> simp [hlits]

/-- The generations that `process_tree` shows. -/
def shownAncestors (ev : SecurityEvent) : List Ancestor :=
  ev.anc.toList.takeWhile fun a => !isAbsent a

theorem nameOr_clean_iff {name : Bytes} : Clean (nameOr name) ↔ Clean name := by
  have hmark : Clean (lit "?") := by decide
  by_cases h : name = []
  · simp [nameOr, h, hmark]
  · simp [nameOr, h]

theorem ancestorTree_clean_iff {as : List Ancestor} :
    Clean (ancestorTree as) ↔
      ∀ a ∈ as.takeWhile (fun a => !isAbsent a), Clean (cString a.comm.toList) := by
  have harrow : Clean (lit "<-") := by decide
  induction as with
  | nil => simp [ancestorTree]
  | cons a as ih =>
    by_cases habsent : isAbsent a = true
    · simp [ancestorTree, habsent]
    · simp [ancestorTree, habsent, harrow, nameOr_clean_iff, ih]

/-- The summary is as clean as the names in its process tree. -/
theorem eventSummary_clean_iff {ev : SecurityEvent} :
    Clean (eventSummary ev) ↔ (isAbsent ev.anc[0] = false →
      Clean ev.commStr ∧ ∀ a ∈ shownAncestors ev, Clean (cString a.comm.toList)) := by
  have hopen : Clean (lit " tree=[") := by decide
  have hclose : Clean (lit "]") := by decide
  by_cases habsent : isAbsent ev.anc[0] = true
  · simp [eventSummary, habsent, summaryText_clean]
  · simp [eventSummary, habsent, summaryText_clean, hopen, hclose, processTree, nameOr_clean_iff,
      ancestorTree_clean_iff, shownAncestors]

/-! ## 3. The rule's reason -/

theorem prefilterExecve_clean {ev : SecurityEvent}
    (h : (prefilterExecve ev).decision ≠ .Escalate) : Clean (prefilterExecve ev).reason := by
  have hbins : ∀ bin ∈ kMaliciousBins ++ kBenignBins, Clean bin := by decide
  have htemp : Clean (lit "임시 디렉토리에서 실행") := by decide
  have hmalicious : Clean (lit "리버스셸/네트워크 툴 실행: ") := by decide
  have hbenign : Clean (lit "화이트리스트 도구: ") := by decide
  simp only [prefilterExecve] at h ⊢
  split_ifs at h ⊢ with hdir hbin hwhite
  · exact htemp
  · exact clean_append.mpr ⟨hmalicious, hbins _ (List.mem_append_left _ hbin)⟩
  · exact clean_append.mpr ⟨hbenign, hbins _ (List.mem_append_right _ hwhite)⟩
  · exact absurd rfl h

theorem prefilterTcp_clean (ev : SecurityEvent) : Clean (prefilterTcp ev).reason := by
  simp only [prefilterTcp]
  split_ifs <;> decide

theorem prefilterFile_clean_iff {ev : SecurityEvent} :
    Clean (prefilterFile ev).reason ↔
      (ev.fileAccess &&& PQSEC_FA_SENSITIVE ≠ 0 → Clean ev.filePath) := by
  have hsens : Clean (lit "민감파일 접근: ") := by decide
  have hino : Clean (lit "ino=") := by decide
  have hwrite : Clean (lit "스테이징 쓰기 (코릴레이션 맥락)") := by decide
  simp only [prefilterFile]
  split_ifs with hflag hpath
  · simp [hflag, hsens]
  · simp only [ne_eq, not_not] at hpath
    simp [hsens, hino, hpath]
  · simp [hflag, hwrite]

/-- Of the reasons that are put out, one quotes the event: that of a sensitive access. -/
theorem prefilter_reason_clean_iff {ev : SecurityEvent} :
    ((prefilter ev).decision ≠ .Escalate → Clean (prefilter ev).reason) ↔
      (ev.type = PQSEC_EVT_FILE_OPEN → ev.fileAccess &&& PQSEC_FA_SENSITIVE ≠ 0 →
        Clean ev.filePath) := by
  have hexec : PQSEC_EVT_EXECVE ≠ PQSEC_EVT_FILE_OPEN := by decide
  have htcp : PQSEC_EVT_TCP_CONNECT ≠ PQSEC_EVT_FILE_OPEN := by decide
  rw [prefilter]
  split_ifs with h₁ h₂ h₃
  · simp only [h₁, hexec, false_implies, iff_true]
    exact prefilterExecve_clean
  · simp [h₂, htcp, prefilterTcp_clean]
  · rw [← prefilterFile_clean_iff]
    refine ⟨fun h _ => h ?_, fun h _ => h h₃⟩
    rw [prefilterFile]
    split_ifs <;> simp
  · simp [h₃]

theorem prefilter_drop_clean {ev : SecurityEvent} (h : (prefilter ev).decision = .Drop) :
    Clean (prefilter ev).reason := by
  refine prefilter_reason_clean_iff.mpr ?_ (by simp [h])
  intro htype hsens
  have hne : PQSEC_EVT_FILE_OPEN ≠ PQSEC_EVT_EXECVE := by decide
  have hne' : PQSEC_EVT_FILE_OPEN ≠ PQSEC_EVT_TCP_CONNECT := by decide
  simp [prefilter, htype, hne, hne', prefilterFile, hsens] at h

/-! ## 4. The correlation's reason -/

/-- The staged write that a hit of `observe_execve` quotes. -/
def Correlator.quotedWrite (c : Correlator) (ev : SecurityEvent) : Option StagedWrite :=
  if isDownloader ev = true ∨ isTempPath ev.execveFilename = false then none else c.liveWrite ev

/-- This connect makes its key's history as long as the threshold. -/
def Correlator.ReachesThreshold (c : Correlator) (ev : SecurityEvent) : Prop :=
  isPrivateIpv4 ev.tcpDaddr = false ∧ ((c.touchConns ev).find? (connKeyOf ev)).isSome = true ∧
    c.beacon_threshold ≤ (c.touchHistory ev).length

theorem length_commStr_le (ev : SecurityEvent) : ev.commStr.length ≤ PQSEC_COMM_LEN :=
  (List.takeWhile_sublist _).length_le.trans ev.comm.length_toList.le

theorem length_execveFilename_le (ev : SecurityEvent) : ev.execveFilename.length ≤ unionLen :=
  (List.takeWhile_sublist _).length_le.trans ev.u.length_toList.le

theorem writeExecReason_clean_iff {w : StagedWrite} {ev : SecurityEvent} {now : UInt64}
    (hw : w.writer.length ≤ PQSEC_COMM_LEN) :
    Clean (writeExecReason w ev.execveFilename now) ↔ Clean w.writer ∧ Clean ev.execveFilename := by
  have hlits : ∀ s ∈ ["쓰기→실행 체인: ", " 가 스테이징에 쓴 ", " 를 ", "초 내 실행 (부모 무관)"],
      Clean (lit s) := by decide
  simp only [List.forall_mem_cons] at hlits
  have hfile := length_execveFilename_le ev
  have hparts := snprintf_clean_iff 300
    [lit "쓰기→실행 체인: ", w.writer, lit " 가 스테이징에 쓴 ", ev.execveFilename]
    [lit " 를 ", fixed 1 (toSec (elapsed now w.ts_ns)), lit "초 내 실행 (부모 무관)"] ?_ ?_
  · refine hparts.trans ?_
    simp [hlits]
  · have h₁ : (lit "쓰기→실행 체인: ").length = 24 := by decide
    have h₂ : (lit " 가 스테이징에 쓴 ").length = 25 := by decide
    simp only [List.flatten_cons, List.flatten_nil, List.append_nil, List.length_append, h₁, h₂]
    simp only [PQSEC_COMM_LEN, unionLen] at hw hfile
    omega
  · simp [hlits]

theorem downloadExecReason_clean {d : Lineage} (hd : Clean d.comm) (shared : UInt32)
    (now : UInt64) : Clean (downloadExecReason d shared now) := by
  have hlits : ∀ s ∈ ["다운로드→실행 체인: ", " 실행과 임시경로 실행이 공통 조상(pid=", ") 공유, ",
      "초 내"], Clean (lit s) := by decide
  simp only [List.forall_mem_cons] at hlits
  refine clean_snprintf ?_
  simp [hlits, hd]

theorem beaconReason_clean_iff {ev : SecurityEvent} {window : UInt64} {count : ℕ} :
    Clean (beaconReason (connKeyOf ev) window count) ↔ Clean ev.commStr := by
  have hlits : ∀ s ∈ ["비콘 의심: ", " → ", ":", " 로 ", "초 윈도우 내 ", "회 반복 접속"],
      Clean (lit s) := by decide
  simp only [List.forall_mem_cons] at hlits
  have hcomm := length_commStr_le ev
  have hparts := snprintf_clean_iff 256 [lit "비콘 의심: ", ev.commStr]
    [lit " → ", inetNtop ev.tcpDaddr, lit ":", decimal ev.tcpDport.toNat, lit " 로 ",
      fixed 0 (toSec window), lit "초 윈도우 내 ", decimal count, lit "회 반복 접속"] ?_ ?_
  · refine hparts.trans ?_
    simp [hlits]
  · have h₁ : (lit "비콘 의심: ").length = 15 := by decide
    simp only [List.flatten_cons, List.flatten_nil, List.append_nil, List.length_append, h₁]
    simp only [PQSEC_COMM_LEN] at hcomm
    omega
  · simp [hlits]

/-- What the containers of a reachable correlator quote. -/
structure Quotable (c : Correlator) : Prop where
  writers : ∀ p w, c.staged.find? p = some w → w.writer.length ≤ PQSEC_COMM_LEN
  downloaders : ∀ d ∈ c.downloads, Clean d.comm

theorem observeAll_quotable {W : UInt64} {N : ℕ} {log : List SecurityEvent} {c : Correlator}
    (h : (Correlator.init W N).observeAll log = some c) : Quotable c := by
  have hprov := observeAll_provenance h
  have hbins : ∀ bin ∈ kDownloaders, Clean bin := by decide
  refine ⟨?_, ?_⟩
  · intro p w hw
    obtain ⟨f, -, -, rfl⟩ := hprov.of_staged hw
    exact length_commStr_le f
  · intro d hd
    obtain ⟨f, -, hf, rfl⟩ := hprov.of_downloads hd
    simp only [isDownload, isDownloader, Bool.and_eq_true, decide_eq_true_eq] at hf
    exact hbins _ hf.2

section

variable {c c' : Correlator} {ev : SecurityEvent} {ch : CorrelationHit}

theorem observeExecve_clean_iff (hq : Quotable c) :
    Clean (c.observeExecve ev).1.reason ↔
      ∀ w, c.quotedWrite ev = some w → Clean w.writer ∧ Clean ev.execveFilename := by
  rw [observeExecve_hit, Correlator.quotedWrite]
  split_ifs with hquiet
  · simp
  · cases hw : c.liveWrite ev with
    | some w =>
      have hfind : c.staged.find? ev.execveFilename = some w := by
        rw [Correlator.liveWrite, Option.filter_eq_some_iff] at hw
        exact hw.1
      simpa using writeExecReason_clean_iff (hq.writers _ _ hfind)
    | none =>
      simp only [reduceCtorEq, false_implies, implies_true, iff_true]
      rcases matchLineage_cases ev.ts_ns (ancestorSet ev) (c.liveDownloads ev) with
        ⟨-, hres⟩ | ⟨d, hd, -, hres⟩
      · simp [hres]
      · rw [hres]
        refine downloadExecReason_clean (hq.downloaders d ?_) _ _
        exact (Recency.popWhile_suffix _ _).subset hd

theorem observeConnect_clean_iff (htype : ev.type = PQSEC_EVT_TCP_CONNECT)
    (h : c.observe ev = some (ch, c')) :
    Clean ch.reason ↔ (c.ReachesThreshold ev → Clean ev.commStr) := by
  cases hpub : isPrivateIpv4 ev.tcpDaddr with
  | true =>
    rw [observe_connect_eq htype, Correlator.observeConnect, if_pos hpub] at h
    obtain ⟨rfl, -⟩ := Prod.mk.inj (Option.some.inj h)
    simp [Correlator.ReachesThreshold, hpub]
  | false =>
    have hdefined : ((c.touchConns ev).find? (connKeyOf ev)).isSome = true := by
      have h' := h
      rw [observe_connect_eq htype] at h'
      obtain ⟨hist, hfind, -, -⟩ := observeConnect_eq_some hpub h'
      simp [hfind]
    rcases (observe_connect_cases htype hpub h).2 with ⟨hlt, rfl⟩ | ⟨hge, rfl⟩
    · simp [Correlator.ReachesThreshold, Nat.not_le.mpr hlt]
    · simp [Correlator.ReachesThreshold, hpub, hdefined, hge, beaconReason_clean_iff]

/-- The reason of an answer, in terms of what it quotes. -/
theorem observe_reason_clean_iff (hq : Quotable c) (h : c.observe ev = some (ch, c')) :
    Clean ch.reason ↔
      (ev.type = PQSEC_EVT_EXECVE → ∀ w, c.quotedWrite ev = some w →
        Clean w.writer ∧ Clean ev.execveFilename) ∧
      (ev.type = PQSEC_EVT_TCP_CONNECT → c.ReachesThreshold ev → Clean ev.commStr) := by
  have hne : PQSEC_EVT_EXECVE ≠ PQSEC_EVT_TCP_CONNECT := by decide
  by_cases hexec : ev.type = PQSEC_EVT_EXECVE
  · rw [observe_execve_eq hexec h, observeExecve_clean_iff hq]
    simp [hexec, hne]
  · by_cases htcp : ev.type = PQSEC_EVT_TCP_CONNECT
    · rw [observeConnect_clean_iff htcp h]
      simp [htcp, hne.symm]
    · have hch : ch = {} := by
        rw [Correlator.observe, if_neg hexec, if_neg htcp] at h
        split at h
        · have := observeFile_hit c ev
          rw [Option.some.inj h] at this
          exact this
        · exact (congrArg Prod.fst (Option.some.inj h)).symm
      simp [hch, hexec, htcp]

end

/-! ## 5. What a call puts out -/

/-- A client whose own words are clean. -/
def QuietClient (L : LlmClient) : Prop :=
  ∀ text st, (Clean (L.classify text st).1.reason ∧ Clean (L.classify text st).1.model) ∧
    Clean (L.deepAnalyze text st).1.reason

/-- The texts of an outcome, and those handed to the client, are clean. -/
structure PutsOutClean {L : LlmClient} (c : Classified L) : Prop where
  event_summary : Clean c.outcome.alert.event_summary
  reason : Clean c.outcome.alert.reason
  log_line : Clean c.outcome.log_line
  asked : ∀ text ∈ c.asked, Clean text

section

variable {ev : SecurityEvent} {summary : Bytes} {pr : PrefilterResult} {ch : CorrelationHit}
  {corr : Correlator}

theorem judge_putsOutClean {L : LlmClient} (hquiet : QuietClient L) (llm : L.State)
    (hsummary : Clean summary) (hrule : pr.decision ≠ .Escalate → Clean pr.reason)
    (hhit : Clean ch.reason) : PutsOutClean (judge L ev summary pr ch llm corr) := by
  have hlits : ∀ s ∈ ["; ", " / ", " | correlation: ", "  [drop]  ", "  (", ")", "  [llm:",
      " normal] ", ", conf="], Clean (lit s) := by decide
  simp only [List.forall_mem_cons] at hlits
  rw [judge]
  by_cases hch : ch.hit = true
  · rw [if_pos hch, judgeHit]
    by_cases hdec : pr.decision = .Alert
    · rw [if_pos hdec]
      have hreason := hrule (by simp [hdec])
      constructor <;> simp [makeAlert, hsummary, hreason, hhit, hlits]
    · rw [if_neg hdec]
      have hcontext : Clean (correlationContext summary ch) := by
        simp [correlationContext, hsummary, hhit, hlits]
      have hwords := (hquiet (correlationContext summary ch) llm).2
      constructor <;> simp [makeAlert, account, hsummary, hhit, hlits, hcontext, hwords]
  · rw [if_neg hch]
    cases hdec : pr.decision with
    | Drop =>
      have hreason := hrule (by simp [hdec])
      constructor <;> simp [hsummary, hreason, hlits]
    | Alert =>
      have hreason := hrule (by simp [hdec])
      constructor <;> simp [makeAlert, hsummary, hreason]
    | Escalate =>
      obtain ⟨hreason, hmodel⟩ := (hquiet summary llm).1
      have hdeep := (hquiet summary (L.classify summary llm).2).2
      have hconf : ∀ x : Double, Clean (snprintf 32 [x.fixed 2]) := by
        intro x
        refine clean_snprintf ?_
        simp
      simp only [judgeEscalated]
      by_cases hnormal : (L.classify summary llm).1.verdict = .Normal
      · rw [if_pos hnormal]
        constructor <;> simp [account, hsummary, hreason, hmodel, hconf, hlits]
      · rw [if_neg hnormal]
        constructor <;> simp [makeAlert, account, hsummary, hdeep]

/-- What is put out contains what is quoted. -/
theorem of_judge_putsOutClean {L : LlmClient} {llm : L.State}
    (h : PutsOutClean (judge L ev summary pr ch llm corr)) :
    (pr.decision = .Alert → Clean pr.reason) ∧ (ch.hit = true → Clean ch.reason) := by
  rw [judge] at h
  by_cases hch : ch.hit = true
  · rw [if_pos hch, judgeHit] at h
    by_cases hdec : pr.decision = .Alert
    · rw [if_pos hdec] at h
      have hreason := h.reason
      simp only [makeAlert, clean_append] at hreason
      exact ⟨fun _ => hreason.1.1, fun _ => hreason.2⟩
    · rw [if_neg hdec] at h
      have hreason := h.reason
      simp only [makeAlert, clean_append] at hreason
      exact ⟨fun h => absurd h hdec, fun _ => hreason.1.1⟩
  · refine ⟨?_, fun h => absurd h hch⟩
    intro hdec
    rw [if_neg hch, hdec] at h
    exact h.reason

end

/-! ## 6. The theorem -/

/-- Nothing that the code prints about this event in this state holds a control byte that the
client did not write. -/
def LogSafe (corr : Correlator) (ev : SecurityEvent) : Prop :=
  Clean (eventSummary ev) ∧ ∀ L : LlmClient, QuietClient L → ∀ llm c,
    classifyEvent L ev llm corr = some c → PutsOutClean c

/-- The bytes that the four routes around `printable` would carry are clean. -/
structure RoutesClean (corr : Correlator) (ev : SecurityEvent) : Prop where
  tree : isAbsent ev.anc[0] = false →
    Clean ev.commStr ∧ ∀ a ∈ shownAncestors ev, Clean (cString a.comm.toList)
  sensitive : ev.type = PQSEC_EVT_FILE_OPEN → ev.fileAccess &&& PQSEC_FA_SENSITIVE ≠ 0 →
    Clean ev.filePath
  chain : ev.type = PQSEC_EVT_EXECVE → ∀ w, corr.quotedWrite ev = some w →
    Clean w.writer ∧ Clean ev.execveFilename
  beacon : ev.type = PQSEC_EVT_TCP_CONNECT → corr.ReachesThreshold ev → Clean ev.commStr

theorem dropNoticeReason_clean (ev : SecurityEvent) : Clean (dropNoticeReason ev) := by
  have hlits : ∀ s ∈ ["agent 백프레셔 드롭: 이 구간에서 ", "개 이벤트 유실 (누적 ", ", 전송 ",
      ") — 탐지 공백 가능"], Clean (lit s) := by decide
  simp only [List.forall_mem_cons] at hlits
  refine clean_snprintf ?_
  simp [hlits]

theorem logSafe_of_routesClean {corr : Correlator} {ev : SecurityEvent} (hq : Quotable corr)
    (h : RoutesClean corr ev) : LogSafe corr ev := by
  have hsummary := eventSummary_clean_iff.mpr h.tree
  refine ⟨hsummary, ?_⟩
  intro L hquiet llm c hc
  rw [classifyEvent] at hc
  split at hc
  · obtain rfl := Option.some.inj hc
    constructor <;> simp [makeAlert, hsummary, dropNoticeReason_clean]
  · rcases hobs : corr.observe ev with _ | ⟨ch, corr'⟩
    · simp [hobs] at hc
    · simp only [hobs, Option.some.injEq] at hc
      subst hc
      exact judge_putsOutClean hquiet llm hsummary (prefilter_reason_clean_iff.mpr h.sensitive)
        ((observe_reason_clean_iff hq hobs).mpr ⟨h.chain, h.beacon⟩)

/-- An answer without a hit has no reason. -/
theorem reason_of_not_hit {c c' : Correlator} {ev : SecurityEvent} {ch : CorrelationHit}
    (h : c.observe ev = some (ch, c')) (hmiss : ch.hit = false) : ch.reason = [] := by
  by_cases hexec : ev.type = PQSEC_EVT_EXECVE
  · rw [observe_execve_eq hexec h, observeExecve_hit] at hmiss ⊢
    split_ifs at hmiss ⊢ with hquiet
    · rfl
    · cases hw : c.liveWrite ev with
      | some w => simp [hw] at hmiss
      | none =>
        simp only [hw] at hmiss
        rcases matchLineage_cases ev.ts_ns (ancestorSet ev) (c.liveDownloads ev) with
          ⟨-, hres⟩ | ⟨d, -, -, hres⟩
        · simp [hres]
        · simp [hres] at hmiss
  · by_cases htcp : ev.type = PQSEC_EVT_TCP_CONNECT
    · cases hpub : isPrivateIpv4 ev.tcpDaddr with
      | true =>
        rw [observe_connect_eq htcp, Correlator.observeConnect, if_pos hpub] at h
        rw [← (Prod.mk.inj (Option.some.inj h)).1]
      | false =>
        rcases (observe_connect_cases htcp hpub h).2 with ⟨-, rfl⟩ | ⟨-, rfl⟩
        · rfl
        · simp at hmiss
    · rw [Correlator.observe, if_neg hexec, if_neg htcp] at h
      split at h
      · have hfile := observeFile_hit c ev
        rw [Option.some.inj h] at hfile
        exact congrArg CorrelationHit.reason hfile
      · rw [← (Prod.mk.inj (Option.some.inj h)).1]

theorem reasons_clean_of_logSafe {corr corr' : Correlator} {ev : SecurityEvent}
    {ch : CorrelationHit} (h : LogSafe corr ev) (hdrop : ev.type ≠ PQSEC_EVT_AGENT_DROP)
    (hobs : corr.observe ev = some (ch, corr')) :
    ((prefilter ev).decision ≠ .Escalate → Clean (prefilter ev).reason) ∧ Clean ch.reason := by
  let L : LlmClient :=
    { State := Unit, classify := fun _ _ => ({}, ()), deepAnalyze := fun _ _ => ({}, ()) }
  have hquiet : QuietClient L := by
    intro _ _
    simp [L]
  have hcall : classifyEvent L ev () corr =
      some (judge L ev (eventSummary ev) (prefilter ev) ch () corr') := by
    simp [classifyEvent, hdrop, hobs]
  obtain ⟨hrule, hhit⟩ := of_judge_putsOutClean (h.2 L hquiet () _ hcall)
  constructor
  · intro hdec
    cases hd : (prefilter ev).decision with
    | Drop => exact prefilter_drop_clean hd
    | Alert => exact hrule hd
    | Escalate => exact absurd hd hdec
  · cases hch : ch.hit with
    | true => exact hhit hch
    | false => simp [reason_of_not_hit hobs hch]

theorem routesClean_of_logSafe {corr : Correlator} {ev : SecurityEvent} (hq : Quotable corr)
    (h : LogSafe corr ev) : RoutesClean corr ev := by
  refine ⟨eventSummary_clean_iff.mp h.1, ?_, ?_, ?_⟩
  · intro htype
    have hobs : corr.observe ev = some (corr.observeFile ev) := by
      have hne : PQSEC_EVT_FILE_OPEN ≠ PQSEC_EVT_EXECVE := by decide
      have hne' : PQSEC_EVT_FILE_OPEN ≠ PQSEC_EVT_TCP_CONNECT := by decide
      simp [Correlator.observe, htype, hne, hne']
    have hreasons := reasons_clean_of_logSafe h (by rw [htype]; decide) hobs
    exact prefilter_reason_clean_iff.mp hreasons.1 htype
  · intro htype
    have hobs : corr.observe ev = some (corr.observeExecve ev) := by
      simp [Correlator.observe, htype]
    have hreasons := reasons_clean_of_logSafe h (by rw [htype]; decide) hobs
    exact ((observe_reason_clean_iff hq hobs).mp hreasons.2).1 htype
  · intro htype hreach
    obtain ⟨ch, corr', hobs⟩ : ∃ ch corr', corr.observe ev = some (ch, corr') := by
      obtain ⟨hist, hfind⟩ := Option.isSome_iff_exists.mp hreach.2.1
      rw [observe_connect_eq htype, Correlator.observeConnect]
      simp only [hreach.1, hfind, Bool.false_eq_true, if_false]
      split
      · exact ⟨_, _, rfl⟩
      · exact ⟨_, _, rfl⟩
    have hreasons := reasons_clean_of_logSafe h (by rw [htype]; decide) hobs
    exact ((observe_reason_clean_iff hq hobs).mp hreasons.2).2 htype hreach

/-- **When no line can be forged.**  In every state the correlator can reach and for every event,
the texts put out are free of control bytes exactly when the four routes around `printable` carry
none: the process tree, the path of a sensitive access, the writer and the file of a write-exec
chain, the process name of a beacon. -/
theorem log_lines_clean_iff {W : UInt64} {N : ℕ} {log : List SecurityEvent} {corr : Correlator}
    (hreach : (Correlator.init W N).observeAll log = some corr) (ev : SecurityEvent) :
    LogSafe corr ev ↔ RoutesClean corr ev := by
  have hq := observeAll_quotable hreach
  exact ⟨routesClean_of_logSafe hq, logSafe_of_routesClean hq⟩

/-- A shell run from `/tmp` under a name with a newline, and nothing around it: `printable`
replaces the byte, and the line is safe. -/
theorem log_lines_clean_iff_no_tree :
    LogSafe (Correlator.init 60000000000 3)
      (SecurityEvent.synExecve (lit "a\nb") (lit "/tmp/x\ny") 7 6 0) := by
  have hreach : (Correlator.init 60000000000 3).observeAll [] =
      some (Correlator.init 60000000000 3) := rfl
  refine (log_lines_clean_iff hreach _).mpr ⟨by decide, by decide, ?_, ?_⟩
  · intro _ w hw
    cases hw
  · intro htype
    exact absurd htype (by decide)

/-- A file written and then run under a name that holds a newline: the reason of the write-exec
chain breaks the line, and the rest of the name stands at the start of the next one. -/
theorem log_lines_forged :
    let name := lit "/tmp/x\n  [drop]  "
    let write := SecurityEvent.synFileOpen (lit "sh") name PQSEC_FA_WRITE 7 6 0
    let exec := SecurityEvent.synExecve (lit "sh") name 8 6 1
    ∃ corr, (Correlator.init 60000000000 3).observeAll [write] = some corr ∧
      ¬ LogSafe corr exec := by
  intro name write exec
  refine ⟨_, rfl, ?_⟩
  intro h
  have hreasons := reasons_clean_of_logSafe h (by decide) rfl
  exact absurd hreasons.2 (by decide)

end PqcEdr.Analyzer
