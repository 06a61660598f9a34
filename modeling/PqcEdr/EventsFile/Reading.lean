/-
# Reading an event line

What `parse` makes of a line, in terms of its words: one lemma for each group of fields that is
extracted together, for each union that is stored and read back, and for the loop over ancestors.
-/
import PqcEdr.EventsFile.Line

namespace PqcEdr.EventsFile

open TextInput

/-! ## 1. Reading from words -/

theorem getUnsigned_of_words {size : ℕ} {s d : Bytes} {ws : List Bytes} (h : words s = d :: ws)
    (hd : Digits d) (hlt : ofDigits d < size) :
    ∃ rest, getUnsigned size s = some (ofDigits d, rest) ∧ words rest = ws := by
  obtain ⟨rest, hget, hrest⟩ := exists_getWord h
  refine ⟨rest, ?_, hrest⟩
  rw [getUnsigned, scanInt_of_digits hget hd]
  simp [hlt]

/-- Decimal digits for a number that fits. -/
def Number (size : ℕ) (d : Bytes) : Prop := Digits d ∧ ofDigits d < size

instance instDecidableNumber (size : ℕ) (d : Bytes) : Decidable (Number size d) :=
  inferInstanceAs (Decidable (_ ∧ _))

theorem number_decimal {size n : ℕ} (h : n < size) : Number size (decimal n) :=
  ⟨digits_decimal n, (ofDigits_decimal n).trans_lt h⟩

theorem number_uint32 (v : UInt32) : Number (2 ^ 32) (decimal v.toNat) := number_decimal v.toNat_lt

theorem number_uint64 (v : UInt64) : Number (2 ^ 64) (decimal v.toNat) := number_decimal v.toNat_lt

theorem getUInt32_of_words {s d : Bytes} {ws : List Bytes} (h : words s = d :: ws)
    (hd : Number (2 ^ 32) d) :
    ∃ rest, getUInt32 s = some (UInt32.ofNat (ofDigits d), rest) ∧ words rest = ws := by
  obtain ⟨rest, hget, hrest⟩ := getUnsigned_of_words h hd.1 hd.2
  exact ⟨rest, by rw [getUInt32, hget]; rfl, hrest⟩

theorem getUInt64_of_words {s d : Bytes} {ws : List Bytes} (h : words s = d :: ws)
    (hd : Number (2 ^ 64) d) :
    ∃ rest, getUInt64 s = some (UInt64.ofNat (ofDigits d), rest) ∧ words rest = ws := by
  obtain ⟨rest, hget, hrest⟩ := getUnsigned_of_words h hd.1 hd.2
  exact ⟨rest, by rw [getUInt64, hget]; rfl, hrest⟩

/-- Behind two numbers, the next word is the name. -/
theorem getHead_of_words {s d d' : Bytes} {ws : List Bytes} (h : words s = d :: d' :: ws)
    (hd : Number (2 ^ 32) d) (hd' : Number (2 ^ 32) d') :
    ∃ rest, words rest = ws ∧ getHead s = (getWord rest).map fun x =>
      (UInt32.ofNat (ofDigits d), UInt32.ofNat (ofDigits d'), x.1, x.2) := by
  obtain ⟨s₁, h₁, hw₁⟩ := getUInt32_of_words h hd
  obtain ⟨s₂, h₂, hw₂⟩ := getUInt32_of_words hw₁ hd'
  refine ⟨s₂, hw₂, ?_⟩
  rw [getHead, h₁]
  simp only [Option.bind_eq_bind, Option.bind_some, h₂]
  cases getWord s₂ <;> rfl

/-- Behind the access bits and two numbers, the next word is the path. -/
theorem getFile_of_words {s acc d d' : Bytes} {ws : List Bytes}
    (h : words s = acc :: d :: d' :: ws) (hd : Number (2 ^ 64) d) (hd' : Number (2 ^ 64) d') :
    ∃ rest, words rest = ws ∧ getFile s = (getWord rest).map fun x =>
      (acc, UInt64.ofNat (ofDigits d), UInt64.ofNat (ofDigits d'), x.1, x.2) := by
  obtain ⟨s₁, h₁, hw₁⟩ := exists_getWord h
  obtain ⟨s₂, h₂, hw₂⟩ := getUInt64_of_words hw₁ hd
  obtain ⟨s₃, h₃, hw₃⟩ := getUInt64_of_words hw₂ hd'
  refine ⟨s₃, hw₃, ?_⟩
  rw [getFile, h₁]
  simp only [Option.bind_eq_bind, Option.bind_some, h₂, h₃]
  cases getWord s₃ <;> rfl

theorem getAddress_of_words {s ip d : Bytes} {ws : List Bytes} (h : words s = ip :: d :: ws)
    (hd : Number 65536 d) :
    ∃ rest, words rest = ws ∧ getAddress s = some (ip, UInt32.ofNat (ofDigits d), rest) := by
  obtain ⟨hdigits, hlt⟩ := hd
  obtain ⟨s₁, h₁, hw₁⟩ := exists_getWord h
  obtain ⟨s₂, h₂, hw₂⟩ := getUInt32_of_words hw₁ ⟨hdigits, hlt.trans (by decide)⟩
  have hport : ¬ UInt32.ofNat (ofDigits d) > 65535 := by
    rw [gt_iff_lt, UInt32.lt_iff_toNat_lt, UInt32.toNat_ofNat_of_lt' (hlt.trans (by decide))]
    change ¬ 65535 < ofDigits d
    omega
  refine ⟨s₂, hw₂, ?_⟩
  rw [getAddress, h₁]
  simp only [Option.bind_eq_bind, Option.bind_some, h₂, if_neg hport]
  rfl

/-! The same behind the numbers of a recorded event. -/

theorem getHead_of_decimal {s : Bytes} {pid ppid : UInt32} {ws : List Bytes}
    (h : words s = decimal pid.toNat :: decimal ppid.toNat :: ws) :
    ∃ rest, words rest = ws ∧
      getHead s = (getWord rest).map fun x => (pid, ppid, x.1, x.2) := by
  simpa only [ofDigits_decimal, UInt32.ofNat_toNat] using
    getHead_of_words h (number_uint32 pid) (number_uint32 ppid)

theorem getFile_of_decimal {s acc : Bytes} {ino : UInt64} {dev : UInt32} {ws : List Bytes}
    (h : words s = acc :: decimal ino.toNat :: decimal dev.toNat :: ws) :
    ∃ rest, words rest = ws ∧
      getFile s = (getWord rest).map fun x => (acc, ino, dev.toUInt64, x.1, x.2) := by
  simpa only [ofDigits_decimal, UInt64.ofNat_toNat, UInt64.ofNat_uInt32ToNat] using
    getFile_of_words h (number_uint64 ino) (number_decimal (dev.toNat_lt.trans (by decide)))

/-! ## 2. What is stored -/

theorem toList_ofBytes_of_le {n : ℕ} {s : Bytes} (h : s.length ≤ n) :
    (CharArray.ofBytes n s).toList = s ++ List.replicate (n - s.length) 0 := by
  have : (CharArray.ofBytes n s).toList = (s ++ List.replicate n 0).take n := rfl
  rw [this, List.take_append, List.take_of_length_le h, List.take_replicate,
    Nat.min_eq_left (by omega)]

/-- A field gives back what was stored, cut to its size. -/
theorem cString_field {n : ℕ} (hn : 0 < n) (s : Bytes) :
    cString (field n s).toList = (cString s).take (n - 1) := by
  have hzero : 0 ∉ (cString s).take (n - 1) := fun h => not_mem_cString s (List.mem_of_mem_take h)
  have hlen : ((cString s).take (n - 1)).length < n := by
    rw [List.length_take]
    omega
  have hread := cString_ofBytes hzero hlen []
  rwa [List.append_nil] at hread

theorem cString_field_of_lt {n : ℕ} {s : Bytes} (h : 0 ∉ s) (hn : s.length < n) :
    cString (field n s).toList = s := by
  rw [cString_field (by omega), cString_eq_self h, List.take_of_length_le (by omega)]

theorem length_field {n : ℕ} (s : Bytes) : (field n s).toList.length = n :=
  (field n s).length_toList

/-- `u.execve.filename`, read back. -/
theorem pathStr_execveMember (file : Bytes) :
    cString ((execveMember file).toList.take PQSEC_FILENAME_LEN) =
      (cString (decodeField file)).take (PQSEC_FILENAME_LEN - 1) := by
  have hlen := length_field (n := PQSEC_FILENAME_LEN) (decodeField file)
  rw [execveMember, toList_ofBytes_of_le (by rw [hlen]; decide), List.take_left' hlen,
    cString_field (by decide)]

/-- The fields of `u.file`, read back. -/
theorem fileMember_fields (acc : Bytes) (ino dev : UInt64) (path : Bytes) :
    cString ((fileMember acc ino dev path).toList.take PQSEC_FILENAME_LEN) =
        (cString (if decodeField path ≠ lit "-" then decodeField path else [])).take
          (PQSEC_FILENAME_LEN - 1) ∧
      ((fileMember acc ino dev path).toList.drop PQSEC_FILENAME_LEN).take 4 =
        toLe 4 (accessFromStr acc).toNat ∧
      ((fileMember acc ino dev path).toList.drop 136).take 8 = toLe 8 ino.toNat ∧
      ((fileMember acc ino dev path).toList.drop 144).take 4 = toLe 4 dev.toUInt32.toNat := by
  have hlen := length_field (n := PQSEC_FILENAME_LEN)
    (if decodeField path ≠ lit "-" then decodeField path else [])
  have hread := cString_field (n := PQSEC_FILENAME_LEN) (by decide)
    (if decodeField path ≠ lit "-" then decodeField path else [])
  rw [fileMember, toList_ofBytes_of_le (by simp; decide)]
  generalize field PQSEC_FILENAME_LEN (if decodeField path ≠ lit "-" then decodeField path else []) =
    f at hlen hread ⊢
  refine ⟨?_, ?_, ?_, ?_⟩
  · simp only [List.append_assoc]
    rw [List.take_left' hlen, hread]
  · simp only [List.append_assoc]
    rw [List.drop_left' hlen, List.take_left' (length_toLe _ _)]
  · have hpre : (f.toList ++ toLe 4 (accessFromStr acc).toNat ++ toLe 4 0).length = 136 := by
      simp [hlen]
    rw [List.append_assoc, List.append_assoc, List.drop_left' hpre,
      List.take_left' (length_toLe _ _)]
  · have hpre : (f.toList ++ toLe 4 (accessFromStr acc).toNat ++ toLe 4 0 ++
        toLe 8 ino.toNat).length = 144 := by
      simp [hlen]
    rw [List.append_assoc, List.drop_left' hpre, List.take_left' (length_toLe _ _)]

/-- The fields of `u.tcp`, read back. -/
theorem tcpMember_fields (daddr port : UInt32) :
    (tcpMember daddr port).toList.take 4 = toLe 4 daddr.toNat ∧
      ((tcpMember daddr port).toList.drop 4).take 2 = toLe 2 port.toUInt16.toNat ∧
      (tcpMember daddr port).toList.getD 6 0 = 2 := by
  rw [tcpMember, toList_ofBytes_of_le (by simp; decide)]
  refine ⟨?_, ?_, ?_⟩
  · rw [List.append_assoc, List.append_assoc, List.take_left' (length_toLe _ _)]
  · rw [List.append_assoc, List.append_assoc, List.drop_left' (length_toLe _ _),
      List.take_left' (length_toLe _ _)]
  · rfl

/-! ## 3. Ancestors -/

theorem strtoul_of_digits {d : Bytes} (hd : Digits d) (hlt : ofDigits d < 2 ^ 64) :
    strtoul (cString d) = ofDigits d := by
  have hzero : 0 ∉ d := fun h => absurd (hd.2 0 h) (by decide)
  have hscan := scanInt_append (t := []) hd (by simp)
  rw [List.append_nil] at hscan
  rw [strtoul, cString_eq_self hzero, hscan]
  simp only [Bool.false_eq_true, if_false]
  rw [if_neg (by omega)]

/-- An item as it is written is read as the ancestor it was written for. -/
theorem parseAncestor_encodeField (a : Ancestor) :
    parseAncestor (encodeField (ancestorText a)) =
      some ⟨a.pid, field _ (orUnknown (cString a.comm.toList))⟩ := by
  have hcolon : 58 ∉ decimal a.pid.toNat := fun h => absurd ((digits_decimal _).2 58 h) (by decide)
  have hpid : ∀ c ∈ decimal a.pid.toNat, decide (c ≠ 58) = true := by
    intro c hc
    refine decide_eq_true ?_
    rintro rfl
    exact hcolon hc
  rw [encodeField_ancestorText, lit_colon, List.append_assoc, List.singleton_append, parseAncestor,
    if_pos (by simp), List.takeWhile_append_of_pos hpid, List.dropWhile_append_of_pos hpid]
  have hvalue : strtoul (cString (decimal a.pid.toNat)) = a.pid.toNat := by
    have hlt : ofDigits (decimal a.pid.toNat) < 2 ^ 32 := (number_uint32 a.pid).2
    rw [strtoul_of_digits (digits_decimal _) (hlt.trans (by decide)), ofDigits_decimal]
  simp [hvalue, decodeField_encodeField]

/-- What an item of an encoded token yields is a part of the item, decoded. -/
theorem of_parseAncestor {q : Bytes} {a : Ancestor} (h : parseAncestor (encodeField q) = some a) :
    ∃ q', (∀ c ∈ q', c ∈ q) ∧ a.comm = field _ q' := by
  have hkept : Kept 58 := kept_of (by decide) (by decide)
  rw [parseAncestor] at h
  by_cases hcolon : 58 ∈ encodeField q
  · obtain ⟨q₁, q₂, rfl, hq₁⟩ :=
      List.eq_append_cons_of_mem ((mem_encodeField_of_kept hkept).mp hcolon)
    have hfree : ∀ c ∈ encodeField q₁, decide (c ≠ 58) = true := by
      intro c hc
      refine decide_eq_true ?_
      rintro rfl
      exact hq₁ ((mem_encodeField_of_kept hkept).mp hc)
    rw [if_pos hcolon, encodeField_append, encodeField_cons, encodeByte_of_not (by decide),
      List.dropWhile_append_of_pos hfree] at h
    obtain rfl := Option.some.inj h
    refine ⟨q₂, fun c hc => List.mem_append_right _ (List.mem_cons_of_mem _ hc), ?_⟩
    simp [decodeField_encodeField]
  · rw [if_neg hcolon] at h
    cases h

/-- The loop fills the slots in order. -/
theorem ancestryLoop_of_map {items : List Bytes} {l : List Ancestor}
    (h : items.map parseAncestor = l.map some) {gen : ℕ} (hgen : gen + l.length ≤ PQSEC_ANCESTORS)
    (anc : Vector Ancestor PQSEC_ANCESTORS) :
    (ancestryLoop items gen anc).toList =
      anc.toList.take gen ++ l ++ anc.toList.drop (gen + l.length) := by
  induction items generalizing l gen anc with
  | nil =>
    obtain rfl : l = [] := by simpa using h.symm
    simp [ancestryLoop]
  | cons one items ih =>
    obtain ⟨a, l, rfl⟩ : ∃ a l', l = a :: l' := by
      cases l with
      | nil => simp at h
      | cons a l => exact ⟨a, l, rfl⟩
    rw [List.map_cons, List.map_cons, List.cons.injEq] at h
    rw [List.length_cons] at hgen
    have hlen : anc.toList.length = PQSEC_ANCESTORS := anc.length_toList
    rw [ancestryLoop, if_pos (by omega), h.1]
    simp only
    have hset : (anc.setIfInBounds gen a).toList =
        (anc.toList.take gen ++ [a]) ++ anc.toList.drop (gen + 1) := by
      rw [Vector.toList_setIfInBounds, List.set_eq_take_append_cons_drop, if_pos (by omega),
        List.append_assoc, List.singleton_append]
    have hpre : (anc.toList.take gen ++ [a]).length = gen + 1 := by
      rw [List.length_append, List.length_take, List.length_singleton]
      omega
    rw [ih h.2 (by omega), hset, List.take_left' hpre, ← List.drop_drop, List.drop_left' hpre,
      List.drop_drop, List.length_cons]
    simp [Nat.add_assoc, Nat.add_comm 1]

/-- What is in the slots after the loop was there before, or comes from an item. -/
theorem mem_ancestryLoop {items : List Bytes} {gen : ℕ} {anc : Vector Ancestor PQSEC_ANCESTORS}
    {a : Ancestor} (h : a ∈ (ancestryLoop items gen anc).toList) :
    a ∈ anc.toList ∨ ∃ one ∈ items, parseAncestor one = some a := by
  induction items generalizing gen anc with
  | nil => exact Or.inl h
  | cons one items ih =>
    rw [ancestryLoop] at h
    by_cases hgen : gen < PQSEC_ANCESTORS
    · rw [if_pos hgen] at h
      rcases hone : parseAncestor one with _ | b <;> rw [hone] at h
      · rcases ih h with hmem | ⟨one', hone', hmem⟩
        · exact Or.inl hmem
        · exact Or.inr ⟨one', List.mem_cons_of_mem _ hone', hmem⟩
      · rcases ih h with hmem | ⟨one', hone', hmem⟩
        · rw [Vector.toList_setIfInBounds] at hmem
          rcases List.mem_or_eq_of_mem_set hmem with hmem | rfl
          · exact Or.inl hmem
          · exact Or.inr ⟨one, List.mem_cons_self, hone⟩
        · exact Or.inr ⟨one', List.mem_cons_of_mem _ hone', hmem⟩
    · rw [if_neg hgen] at h
      exact Or.inl h

theorem isPrefixOf_encodeField {p : Bytes} (h : (lit "anc:").isPrefixOf (encodeField p) = true) :
    ∃ p', p = lit "anc:" ++ p' ∧ (encodeField p).drop 4 = encodeField p' := by
  obtain ⟨t, ht⟩ := List.isPrefixOf_iff_prefix.mp h
  obtain ⟨p₁, rfl, h₁⟩ := encodeField_eq_cons ht.symm (by decide)
  obtain ⟨p₂, rfl, h₂⟩ := encodeField_eq_cons h₁.symm (by decide)
  obtain ⟨p₃, rfl, h₃⟩ := encodeField_eq_cons h₂.symm (by decide)
  obtain ⟨p₄, rfl, h₄⟩ := encodeField_eq_cons h₃.symm (by decide)
  refine ⟨p₄, rfl, ?_⟩
  rw [← ht, ← h₄]
  rfl

/-- The tokens change nothing but the ancestors. -/
theorem parseTokens_eq (toks : List Bytes) (ev : SecurityEvent) :
    ∃ anc, parseTokens toks ev = { ev with anc := anc } ∧ ∀ a ∈ anc.toList, a ∈ ev.anc.toList ∨
      ∃ tok ∈ toks, (lit "anc:").isPrefixOf tok = true ∧
        ∃ one ∈ (tok.drop 4).splitOn 124, parseAncestor one = some a := by
  induction toks generalizing ev with
  | nil => exact ⟨ev.anc, rfl, fun a ha => Or.inl ha⟩
  | cons tok toks ih =>
    by_cases hanc : (lit "anc:").isPrefixOf tok = true
    · obtain ⟨anc, heq, hmem⟩ := ih (parseAncestry tok ev)
      have hstep : parseTokens (tok :: toks) ev = parseTokens toks (parseAncestry tok ev) := by
        rw [parseTokens, List.foldl_cons, if_pos hanc, parseTokens]
      refine ⟨anc, by rw [hstep, heq]; rfl, ?_⟩
      intro a ha
      rcases hmem a ha with hold | ⟨tok', htok', hrest⟩
      · rcases mem_ancestryLoop hold with hold | hone
        · exact Or.inl hold
        · exact Or.inr ⟨tok, List.mem_cons_self, hanc, hone⟩
      · exact Or.inr ⟨tok', List.mem_cons_of_mem _ htok', hrest⟩
    · obtain ⟨anc, heq, hmem⟩ := ih ev
      have hstep : parseTokens (tok :: toks) ev = parseTokens toks ev := by
        rw [parseTokens, List.foldl_cons, if_neg hanc, parseTokens]
      refine ⟨anc, by rw [hstep, heq], ?_⟩
      intro a ha
      rcases hmem a ha with hold | ⟨tok', htok', hrest⟩
      · exact Or.inl hold
      · exact Or.inr ⟨tok', List.mem_cons_of_mem _ htok', hrest⟩

end PqcEdr.EventsFile
