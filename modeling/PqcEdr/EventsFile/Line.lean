/-
# A recorded line

What `format_line` writes, as a list of texts: each is encoded and put behind a blank, and nothing
is cut by the buffer.  So the words of the line are the pieces of the texts; and the numbers, the
address and the access bits among them are read back as they were.
-/
import PqcEdr.EventsFile.Fields

namespace PqcEdr.EventsFile

open TextInput

/-! ## 1. Numbers -/

theorem digits_decimal (n : ℕ) : Digits (decimal n) := by
  refine ⟨?_, ?_⟩
  · rw [decimal, Ne, List.map_eq_nil_iff]
    exact List.ne_nil_of_length_pos Nat.length_toDigits_pos
  · intro c hc
    have h := mem_decimal hc
    simp only [isDigit, Bool.and_eq_true, decide_eq_true_eq, UInt8.le_iff_toNat_le]
    exact h

theorem length_decimal_le {n k : ℕ} (hk : 0 < k) (h : n < 10 ^ k) : (decimal n).length ≤ k := by
  rw [decimal, List.length_map]
  exact (Nat.length_toDigits_le_iff (by decide) hk).mpr h

theorem ofDigits_decimal (n : ℕ) : ofDigits (decimal n) = n := by
  have hdigits : ∀ c ∈ Nat.toDigits 10 n, (UInt8.ofNat c.toNat).toNat = c.toNat := by
    intro c hc
    have hd := Nat.isDigit_of_mem_toDigits (by decide) (by decide) hc
    simp only [Char.isDigit, Bool.and_eq_true, decide_eq_true_eq, UInt32.le_iff_toNat_le] at hd
    have hhigh : c.toNat ≤ 57 := hd.2
    rw [UInt8.toNat_ofNat', Nat.mod_eq_of_lt (by omega)]
  have hfold : ∀ (l : List Char) (m : ℕ), (∀ c ∈ l, (UInt8.ofNat c.toNat).toNat = c.toNat) →
      (l.map fun c => UInt8.ofNat c.toNat).foldl (fun n c => 10 * n + (c.toNat - 48)) m =
        Nat.ofDigitChars 10 l m := by
    intro l
    induction l with
    | nil => simp
    | cons c l ih =>
      intro m h
      rw [List.map_cons, List.foldl_cons, ih _ fun d hd => h d (List.mem_cons_of_mem c hd),
        h c List.mem_cons_self, Nat.ofDigitChars_cons]
      rfl
  rw [ofDigits, decimal, hfold _ _ hdigits, Nat.ofDigitChars_ten_toDigits]

theorem isEscaped_of_isDigit {c : UInt8} (h : isDigit c = true) : isEscaped c = false := by
  by_contra hesc
  rw [Bool.not_eq_false] at hesc
  rcases isEscaped_cases hesc with rfl | rfl | rfl | rfl | rfl | rfl <;> exact absurd h (by decide)

theorem isBreak_of_isDigit {c : UInt8} (h : isDigit c = true) : isBreak c = false := by
  have hspace := isSpace_of_isDigit h
  rwa [isSpace_eq_isBreak (isEscaped_of_isDigit h)] at hspace

theorem encodeField_decimal (n : ℕ) : encodeField (decimal n) = decimal n :=
  encodeField_eq_self fun c hc => isEscaped_of_isDigit ((digits_decimal n).2 c hc)

/-! ## 2. Addresses -/

/-- The four numbers of an address. -/
theorem inetNtop_eq (daddr : UInt32) : ∃ a b c d : UInt8,
    toLe 4 daddr.toNat = [a, b, c, d] ∧ inetNtop daddr = decimal a.toNat ++ 46 ::
      (decimal b.toNat ++ 46 :: (decimal c.toNat ++ 46 :: decimal d.toNat)) := by
  refine ⟨_, _, _, _, rfl, ?_⟩
  simp only [inetNtop, toLe, List.map_cons, List.map_nil, List.intersperse, List.flatten_cons,
    List.flatten_nil, List.append_nil]
  rfl

/-- The digits of an address and the dots between them. -/
theorem mem_inetNtop {daddr : UInt32} {c : UInt8} (h : c ∈ inetNtop daddr) :
    isDigit c = true ∨ c = 46 := by
  obtain ⟨x, y, z, w, -, heq⟩ := inetNtop_eq daddr
  rw [heq] at h
  simp only [List.mem_append, List.mem_cons] at h
  rcases h with h | rfl | h | rfl | h | rfl | h
  all_goals first
    | exact Or.inr rfl
    | exact Or.inl ((digits_decimal _).2 c h)

theorem octet_decimal (b : UInt8) : octet? (decimal b.toNat) = some b := by
  have hlt := b.toNat_lt
  have hhead : (decimal b.toNat).length = 1 ∨ (decimal b.toNat).head? ≠ some 48 := by
    have hall : ∀ n < 256, (decimal n).length = 1 ∨ (decimal n).head? ≠ some 48 := by decide +kernel
    exact hall _ hlt
  rw [octet?, ofDigits_decimal, if_pos ⟨digits_decimal _, hhead, by omega⟩, UInt8.ofNat_toNat]

theorem inetPton_inetNtop (daddr : UInt32) : inetPton (inetNtop daddr) = some daddr := by
  obtain ⟨a, b, c, d, hle, heq⟩ := inetNtop_eq daddr
  have hdot : ∀ n, 46 ∉ decimal n := by
    intro n hmem
    exact absurd ((digits_decimal n).2 46 hmem) (by decide)
  have hsplit : (inetNtop daddr).splitOn 46 =
      [decimal a.toNat, decimal b.toNat, decimal c.toNat, decimal d.toNat] := by
    rw [heq, List.splitOn_append_cons_self_of_not_mem (hdot _),
      List.splitOn_append_cons_self_of_not_mem (hdot _),
      List.splitOn_append_cons_self_of_not_mem (hdot _), List.splitOn_eq_singleton (hdot _)]
  have hofLe : ofLe [a, b, c, d] = daddr.toNat := by
    rw [← hle, ofLe_toLe daddr.toNat_lt]
  simp [inetPton, hsplit, octet_decimal, hofLe]

theorem cString_inetNtop (daddr : UInt32) : cString (inetNtop daddr) = inetNtop daddr := by
  rw [cString, List.takeWhile_eq_self_iff]
  intro c hc
  rcases mem_inetNtop hc with hdigit | rfl
  · refine decide_eq_true ?_
    rintro rfl
    exact absurd hdigit (by decide)
  · decide

theorem length_inetNtop_le (daddr : UInt32) : (inetNtop daddr).length ≤ 15 := by
  obtain ⟨a, b, c, d, -, heq⟩ := inetNtop_eq daddr
  have hlen : ∀ b : UInt8, (decimal b.toNat).length ≤ 3 := fun b =>
    length_decimal_le (by decide) (Nat.lt_of_lt_of_le b.toNat_lt (by decide))
  have ha := hlen a
  have hb := hlen b
  have hc := hlen c
  have hd := hlen d
  rw [heq]
  simp only [List.length_append, List.length_cons]
  omega

/-! ## 3. Access bits -/

theorem accessFromStr_accessToStr {a : UInt32} (h : a < 16) :
    accessFromStr (accessToStr a) = a := by
  have hall : ∀ n < 16, accessFromStr (accessToStr (UInt32.ofNat n)) = UInt32.ofNat n := by decide
  have := hall a.toNat (UInt32.lt_iff_toNat_lt.mp h)
  rwa [UInt32.ofNat_toNat] at this

/-- The letters, or `-`. -/
theorem accessToStr_mem (a : UInt32) :
    accessToStr a ≠ [] ∧ (accessToStr a).length ≤ 4 ∧
      ∀ c ∈ accessToStr a, isEscaped c = false ∧ isBreak c = false := by
  have hall : ∀ w c s x : Bool,
      let o := (if w then lit "w" else []) ++ (if c then lit "c" else []) ++
        (if s then lit "s" else []) ++ (if x then lit "x" else [])
      let t := if o = [] then lit "-" else o
      t ≠ [] ∧ t.length ≤ 4 ∧ ∀ c ∈ t, isEscaped c = false ∧ isBreak c = false := by decide
  have h := hall (decide (a &&& PQSEC_FA_WRITE ≠ 0)) (decide (a &&& PQSEC_FA_CREATE ≠ 0))
    (decide (a &&& PQSEC_FA_SENSITIVE ≠ 0)) (decide (a &&& PQSEC_FA_EXEC ≠ 0))
  simp only [decide_eq_true_eq] at h
  exact h

/-! ## 4. The line -/

/-! The literals that lines are put together from. -/

theorem lit_blank : lit " " = [32] := by decide
theorem lit_colon : lit ":" = [58] := by decide
theorem lit_bar : lit "|" = [124] := by decide
theorem lit_anc : lit " anc:" = 32 :: lit "anc:" := by decide
theorem lit_execve : lit "execve  " = lit "execve" ++ [32, 32] := by decide
theorem lit_connect : lit "connect " = lit "connect" ++ [32] := by decide
theorem lit_fileopen : lit "fileopen " = lit "fileopen" ++ [32] := by decide

/-- The types that `format_line` writes. -/
def IsRecorded (ev : SecurityEvent) : Prop :=
  ev.type = PQSEC_EVT_EXECVE ∨ ev.type = PQSEC_EVT_TCP_CONNECT ∨ ev.type = PQSEC_EVT_FILE_OPEN

instance instDecidableIsRecorded (ev : SecurityEvent) : Decidable (IsRecorded ev) :=
  inferInstanceAs (Decidable (_ ∨ _ ∨ _))

def lineKind (ev : SecurityEvent) : Bytes :=
  if ev.type = PQSEC_EVT_EXECVE then lit "execve"
  else if ev.type = PQSEC_EVT_TCP_CONNECT then lit "connect"
  else lit "fileopen"

/-- The fields that depend on the type. -/
def memberTexts (ev : SecurityEvent) : List Bytes :=
  if ev.type = PQSEC_EVT_EXECVE then [orUnknown (pathStr ev)]
  else if ev.type = PQSEC_EVT_TCP_CONNECT then [inetNtop ev.tcpDaddr, decimal ev.tcpDport.toNat]
  else [accessToStr ev.fileAccess, decimal ev.fileIno.toNat, decimal ev.fileDev.toNat,
    if pathStr ev = [] then lit "-" else pathStr ev]

def presentAncestors (ev : SecurityEvent) : List Ancestor :=
  ev.anc.toList.filter (!isEmptySlot ·)

def ancestorText (a : Ancestor) : Bytes :=
  decimal a.pid.toNat ++ 58 :: orUnknown (cString a.comm.toList)

/-- The `anc:` token, if there is an ancestor. -/
def ancestryTexts (ev : SecurityEvent) : List Bytes :=
  match presentAncestors ev with
  | [] => []
  | a :: as => [lit "anc:" ++ (ancestorText a ++ as.flatMap fun a => 124 :: ancestorText a)]

def headTexts (ev : SecurityEvent) : List Bytes :=
  [decimal ev.pid.toNat, decimal ev.ppid.toNat, orUnknown ev.commStr]

def lineTexts (ev : SecurityEvent) : List Bytes :=
  headTexts ev ++ memberTexts ev ++ ancestryTexts ev

/-- Each text, encoded, behind a blank. -/
def spaced (texts : List Bytes) : Bytes := texts.flatMap fun x => 32 :: encodeField x

/-- The whole line; `execve` has one more blank behind it. -/
def fullLine (ev : SecurityEvent) : Bytes :=
  lineKind ev ++ (if ev.type = PQSEC_EVT_EXECVE then lit " " else []) ++ spaced (lineTexts ev)

theorem encodeField_inetNtop (daddr : UInt32) : encodeField (inetNtop daddr) = inetNtop daddr := by
  refine encodeField_eq_self ?_
  intro c hc
  rcases mem_inetNtop hc with hdigit | rfl
  · exact isEscaped_of_isDigit hdigit
  · decide

theorem encodeField_accessToStr (a : UInt32) : encodeField (accessToStr a) = accessToStr a :=
  encodeField_eq_self fun c hc => ((accessToStr_mem a).2.2 c hc).1

theorem encodeField_ancestorText (a : Ancestor) : encodeField (ancestorText a) =
    decimal a.pid.toNat ++ lit ":" ++ encodeField (orUnknown (cString a.comm.toList)) := by
  rw [ancestorText, encodeField_append, encodeField_decimal, encodeField_cons,
    encodeByte_of_not (by decide), List.append_assoc]
  rfl

/-- The loop of `encode_ancestry`, once something is written. -/
theorem foldl_encodeAncestry {o : Bytes} (ho : o ≠ []) (l : List Ancestor) :
    l.foldl (fun o a =>
      if isEmptySlot a then o
      else o ++ (if o = [] then lit " anc:" else lit "|") ++ decimal a.pid.toNat ++ lit ":" ++
        encodeField (orUnknown (cString a.comm.toList))) o =
      o ++ (l.filter (!isEmptySlot ·)).flatMap fun a => 124 :: encodeField (ancestorText a) := by
  induction l generalizing o with
  | nil => simp
  | cons a l ih =>
    rw [List.foldl_cons, List.filter_cons]
    cases ha : isEmptySlot a with
    | true => simpa using ih ho
    | false =>
      simp only [Bool.false_eq_true, if_false, Bool.not_false, if_true, ho]
      rw [ih (by simp [ho]), List.flatMap_cons, encodeField_ancestorText]
      simp [lit_bar]

theorem encodeAncestry_eq (ev : SecurityEvent) :
    encodeAncestry ev = spaced (ancestryTexts ev) := by
  have hloop : ∀ l : List Ancestor, l.foldl (fun o a =>
      if isEmptySlot a then o
      else o ++ (if o = [] then lit " anc:" else lit "|") ++ decimal a.pid.toNat ++ lit ":" ++
        encodeField (orUnknown (cString a.comm.toList))) [] =
      match l.filter (!isEmptySlot ·) with
      | [] => []
      | a :: as => lit " anc:" ++ (encodeField (ancestorText a) ++
          as.flatMap fun a => 124 :: encodeField (ancestorText a)) := by
    intro l
    induction l with
    | nil => rfl
    | cons a l ih =>
      rw [List.foldl_cons, List.filter_cons]
      cases ha : isEmptySlot a with
      | true => simpa using ih
      | false =>
        simp only [Bool.false_eq_true, if_false, Bool.not_false, if_true]
        rw [foldl_encodeAncestry (by simp [lit_anc]), encodeField_ancestorText]
        simp
  have hflat : ∀ as : List Ancestor, encodeField (as.flatMap fun a => 124 :: ancestorText a) =
      as.flatMap fun a => 124 :: encodeField (ancestorText a) := by
    intro as
    induction as with
    | nil => rfl
    | cons a as ih =>
      rw [List.flatMap_cons, List.flatMap_cons, encodeField_append, ih, encodeField_cons,
        encodeByte_of_not (by decide)]
      rfl
  rw [encodeAncestry, hloop, ancestryTexts, presentAncestors]
  rcases ev.anc.toList.filter (!isEmptySlot ·) with _ | ⟨a, as⟩
  · rfl
  · rw [spaced, List.flatMap_cons, List.flatMap_nil, List.append_nil, encodeField_append,
      encodeField_append, hflat]
    rfl

theorem length_cString_le (s : Bytes) : (cString s).length ≤ s.length :=
  (List.takeWhile_sublist _).length_le

theorem snprintf_eq_flatten {n : ℕ} {l : List Bytes} (h : l.flatten.length < n) :
    snprintf n l = l.flatten := by
  rw [snprintf, List.take_of_length_le (by omega)]

theorem length_encode_orUnknown {s : Bytes} {n : ℕ} (hn : 1 ≤ n) (h : s.length ≤ n) :
    (encodeField (orUnknown s)).length ≤ 3 * n := by
  refine (length_encodeField_le _).trans ?_
  rw [orUnknown]
  split_ifs
  · have hone : (lit "?").length = 1 := by decide
    omega
  · omega

/-- The buffer never cuts the line. -/
theorem formatLine_eq_fullLine {ev : SecurityEvent} (h : IsRecorded ev) :
    formatLine ev = fullLine ev := by
  have hu32 : ∀ v : UInt32, (decimal v.toNat).length ≤ 10 := fun v =>
    length_decimal_le (by decide) (Nat.lt_of_lt_of_le v.toNat_lt (by decide))
  have hu16 := length_decimal_le (n := ev.tcpDport.toNat) (k := 5) (by decide)
    (Nat.lt_of_lt_of_le ev.tcpDport.toNat_lt (by decide))
  have hu64 := length_decimal_le (n := ev.fileIno.toNat) (k := 20) (by decide)
    (Nat.lt_of_lt_of_le ev.fileIno.toNat_lt (by decide))
  have hpid := hu32 ev.pid
  have hppid := hu32 ev.ppid
  have hdev := hu32 ev.fileDev
  have hip := length_inetNtop_le ev.tcpDaddr
  have hacc := (accessToStr_mem ev.fileAccess).2.1
  have hcomm : (encodeField (orUnknown ev.commStr)).length ≤ 48 :=
    length_encode_orUnknown (by decide) ((length_cString_le _).trans_eq ev.comm.length_toList)
  have hpathLen : (pathStr ev).length ≤ 128 :=
    (length_cString_le _).trans (List.length_take_le _ _)
  have hpath : (encodeField (orUnknown (pathStr ev))).length ≤ 384 :=
    length_encode_orUnknown (by decide) hpathLen
  have hkind : (lit "execve").length = 6 ∧ (lit "connect").length = 7 ∧
      (lit "fileopen").length = 8 := by decide
  rw [formatLine, fullLine, lineTexts, lineKind, memberTexts, headTexts, encodeAncestry_eq]
  rcases h with htype | htype | htype
  · simp only [htype, if_true]
    rw [snprintf_eq_flatten (by simp [lit_blank, lit_execve]; omega)]
    simp [spaced, encodeField_decimal, lit_blank, lit_execve]
  · simp only [htype, if_neg (show PQSEC_EVT_TCP_CONNECT ≠ PQSEC_EVT_EXECVE by decide), if_true]
    rw [snprintf_eq_flatten (by simp [lit_blank, lit_connect]; omega)]
    simp [spaced, encodeField_decimal, encodeField_inetNtop, lit_blank, lit_connect]
  · have hlast : (if pathStr ev = [] then lit "-" else encodeField (pathStr ev)) =
        encodeField (if pathStr ev = [] then lit "-" else pathStr ev) := by
      split_ifs
      · decide
      · rfl
    have hlen : (encodeField (if pathStr ev = [] then lit "-" else pathStr ev)).length ≤ 384 := by
      split_ifs
      · decide
      · exact (length_encodeField_le _).trans (by omega)
    simp only [htype, if_neg (show PQSEC_EVT_FILE_OPEN ≠ PQSEC_EVT_EXECVE by decide),
      if_neg (show PQSEC_EVT_FILE_OPEN ≠ PQSEC_EVT_TCP_CONNECT by decide), if_true, hlast]
    rw [snprintf_eq_flatten (by simp [lit_blank, lit_fileopen]; omega)]
    simp [spaced, encodeField_decimal, encodeField_accessToStr, lit_blank, lit_fileopen]

/-! ## 5. The words of a line -/

theorem words_append_spaced (s : Bytes) (texts : List Bytes) :
    words (s ++ spaced texts) = words s ++ (texts.flatMap pieces).map encodeField := by
  induction texts generalizing s with
  | nil => simp [spaced]
  | cons x texts ih =>
    have hcons : spaced (x :: texts) = 32 :: (encodeField x ++ spaced texts) := List.flatMap_cons
    rw [hcons, words_append_cons (by decide), ih, words_encodeField, List.flatMap_cons,
      List.map_append]

theorem lineKind_cases (ev : SecurityEvent) :
    lineKind ev = lit "execve" ∨ lineKind ev = lit "connect" ∨ lineKind ev = lit "fileopen" := by
  rw [lineKind]
  split_ifs <;> simp

theorem words_lineKind (ev : SecurityEvent) :
    words (lineKind ev ++ if ev.type = PQSEC_EVT_EXECVE then lit " " else []) = [lineKind ev] := by
  have hblank : words (lit " ") = [] := by decide
  have hkind : words (lineKind ev) = [lineKind ev] := by
    rcases lineKind_cases ev with h | h | h <;> rw [h] <;> decide
  by_cases htype : ev.type = PQSEC_EVT_EXECVE
  · rw [if_pos htype, lit_blank, words_append_cons (by decide), hkind]
    rfl
  · rw [if_neg htype, List.append_nil, hkind]

theorem words_fullLine (ev : SecurityEvent) :
    words (fullLine ev) = lineKind ev :: ((lineTexts ev).flatMap pieces).map encodeField := by
  rw [fullLine, words_append_spaced, words_lineKind]
  rfl

/-- A line feed or a `#` in a field is escaped. -/
theorem not_mem_fullLine {b : UInt8} (hb : b = 10 ∨ b = 35) (ev : SecurityEvent) :
    b ∉ fullLine ev := by
  have hesc : isEscaped b = true ∧ b ≠ 37 ∧ b ≠ 32 := by
    rcases hb with rfl | rfl <;> decide
  have hkind : b ∉ lineKind ev ++ (if ev.type = PQSEC_EVT_EXECVE then lit " " else []) := by
    rcases hb with rfl | rfl <;> rcases lineKind_cases ev with h | h | h <;> rw [h] <;>
      split_ifs <;> decide
  have hspaced : b ∉ spaced (lineTexts ev) := by
    rw [spaced, List.mem_flatMap]
    rintro ⟨x, -, hmem⟩
    rcases List.mem_cons.mp hmem with h | h
    · exact hesc.2.2 h
    · exact not_mem_encodeField hesc.1 hesc.2.1 x h
  rw [fullLine, List.mem_append, not_or]
  exact ⟨hkind, hspaced⟩

end PqcEdr.EventsFile
