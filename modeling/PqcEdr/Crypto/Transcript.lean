/-
# Transcripts without separators

`handshake.cpp` hashes the frames one behind the other, with no separator and no role label: two
frames for what the server signs, three for what the client signs.  What keeps them apart is the
length in each frame's header, which every parser checks against the real size: no accepted frame
is a proper prefix of another one, so a concatenation splits in one way only.
-/
import PqcEdr.Crypto.Primitives
import PqcEdr.Crypto.Codec

namespace PqcEdr.Crypto

open Wire

/-! ## 1. What is signed -/

/-- The frames under a signature: the server's two, or the client's three. -/
inductive Signed
  | server (ch_frame sh_frame : Bytes)
  | client (ch_frame sh_frame sa_frame : Bytes)
  deriving DecidableEq, Repr

namespace Signed

/-- `acc`, as both handshakes build it with `concat`. -/
def acc : Signed → Bytes
  | server ch_frame sh_frame => ch_frame ++ sh_frame
  | client ch_frame sh_frame sa_frame => ch_frame ++ sh_frame ++ sa_frame

/-- Each frame is one that its parser accepts. -/
def Accepted : Signed → Prop
  | server ch_frame sh_frame =>
    (∃ m, parseClientHello ch_frame = .ok m) ∧ ∃ m, parseServerHello sh_frame = .ok m
  | client ch_frame sh_frame sa_frame =>
    (∃ m, parseClientHello ch_frame = .ok m) ∧ (∃ m, parseServerHello sh_frame = .ok m) ∧
      ∃ m, parseServerAuth sa_frame = .ok m

end Signed

/-- A signature that was made for `m` is accepted for `m'` only if that is the same message. -/
def MlDsa.Binds (dsa : MlDsa) (m m' : Bytes) : Prop :=
  ∀ coins sk pk signature, dsa.sign coins m sk = .ok signature →
    dsa.verify m' signature pk = true → m = m'

/-! ## 2. Accepted frames -/

/-- What one of the parsers accepts is a frame. -/
theorem isFrame_of_accepted {M : Type} {t : MsgType} {f : Bytes} {x : Result M} {m : M}
    {mk : M → Message} (hparse : parse t f = x.map mk) (h : x = .ok m) : IsFrame f := by
  rw [h] at hparse
  exact ⟨t, _, frame_of_parse hparse⟩

theorem isFrame_of_parseClientHello {f : Bytes} {m : ClientHello}
    (h : parseClientHello f = .ok m) : IsFrame f :=
  isFrame_of_accepted (t := .ClientHello) rfl h

theorem isFrame_of_parseServerHello {f : Bytes} {m : ServerHello}
    (h : parseServerHello f = .ok m) : IsFrame f :=
  isFrame_of_accepted (t := .ServerHello) rfl h

theorem isFrame_of_parseServerAuth {f : Bytes} {m : ServerAuth}
    (h : parseServerAuth f = .ok m) : IsFrame f :=
  isFrame_of_accepted (t := .ServerAuth) rfl h

theorem Wire.IsFrame.ne_nil {f : Bytes} (h : IsFrame f) : f ≠ [] := by
  obtain ⟨t, payload, hf⟩ := h
  obtain ⟨-, rfl⟩ := frame_eq_ok.mp hf
  exact List.cons_ne_nil _ _

/-! ## 3. Concatenations of frames -/

section

variable {ch sh sa ch' sh' sa' : Bytes}

theorem two_frames_inj (hch : IsFrame ch) (hch' : IsFrame ch') (h : ch ++ sh = ch' ++ sh') :
    ch = ch' ∧ sh = sh' := hch.append_inj hch' h

theorem three_frames_inj (hch : IsFrame ch) (hsh : IsFrame sh) (hch' : IsFrame ch')
    (hsh' : IsFrame sh') (h : ch ++ sh ++ sa = ch' ++ sh' ++ sa') :
    ch = ch' ∧ sh = sh' ∧ sa = sa' := by
  rw [List.append_assoc, List.append_assoc] at h
  obtain ⟨h₁, h⟩ := hch.append_inj hch' h
  exact ⟨h₁, hsh.append_inj hsh' h⟩

/-- Behind two equal frames, the third one would have to be empty. -/
theorem two_frames_ne_three (hch : IsFrame ch) (hsh : IsFrame sh) (hch' : IsFrame ch')
    (hsh' : IsFrame sh') (hsa' : IsFrame sa') : ch ++ sh ≠ ch' ++ sh' ++ sa' := by
  intro h
  have hnil : ch ++ sh ++ [] = ch' ++ sh' ++ sa' := (List.append_nil _).trans h
  obtain ⟨-, -, hsa⟩ := three_frames_inj hch hsh hch' hsh' hnil
  exact hsa'.ne_nil hsa.symm

end

theorem Signed.acc_inj {T T' : Signed} (h : T.Accepted) (h' : T'.Accepted)
    (heq : T.acc = T'.acc) : T = T' := by
  cases T with
  | server ch sh =>
    obtain ⟨⟨_, hch⟩, ⟨_, hsh⟩⟩ := h
    cases T' with
    | server ch' sh' =>
      obtain ⟨⟨_, hch'⟩, -⟩ := h'
      obtain ⟨rfl, rfl⟩ := two_frames_inj (isFrame_of_parseClientHello hch)
        (isFrame_of_parseClientHello hch') heq
      rfl
    | client ch' sh' sa' =>
      obtain ⟨⟨_, hch'⟩, ⟨_, hsh'⟩, ⟨_, hsa'⟩⟩ := h'
      exact absurd heq (two_frames_ne_three (isFrame_of_parseClientHello hch)
        (isFrame_of_parseServerHello hsh) (isFrame_of_parseClientHello hch')
        (isFrame_of_parseServerHello hsh') (isFrame_of_parseServerAuth hsa'))
  | client ch sh sa =>
    obtain ⟨⟨_, hch⟩, ⟨_, hsh⟩, ⟨_, hsa⟩⟩ := h
    cases T' with
    | server ch' sh' =>
      obtain ⟨⟨_, hch'⟩, ⟨_, hsh'⟩⟩ := h'
      exact absurd heq.symm (two_frames_ne_three (isFrame_of_parseClientHello hch')
        (isFrame_of_parseServerHello hsh') (isFrame_of_parseClientHello hch)
        (isFrame_of_parseServerHello hsh) (isFrame_of_parseServerAuth hsa))
    | client ch' sh' sa' =>
      obtain ⟨⟨_, hch'⟩, ⟨_, hsh'⟩, -⟩ := h'
      obtain ⟨rfl, rfl, rfl⟩ := three_frames_inj (isFrame_of_parseClientHello hch)
        (isFrame_of_parseServerHello hsh) (isFrame_of_parseClientHello hch')
        (isFrame_of_parseServerHello hsh') heq
      rfl

/-! ## 4. The theorem -/

/-- **Transcripts are unambiguous.**  Two accepted transcripts with the same bytes are the same
frames in the same split, so the server's is never the client's.  Where their two hashes do not
collide and a signature binds its message, a signature made for one is refused for any other. -/
theorem transcripts_unambiguous {T T' : Signed} (h : T.Accepted) (h' : T'.Accepted) :
    (T.acc = T'.acc → T = T') ∧
      ∀ (L : Primitives) (th th' : Bytes), L.kdf.sha256 T.acc = .ok th →
        L.kdf.sha256 T'.acc = .ok th' → (th = th' → T.acc = T'.acc) → L.dsa.Binds th th' →
        ∀ coins sk pk signature, L.dsa.sign coins th sk = .ok signature →
          L.dsa.verify th' signature pk = true → T = T' := by
  refine ⟨T.acc_inj h h', ?_⟩
  intro L th th' _ _ hcollide hbinds coins sk pk signature hsign hverify
  exact T.acc_inj h h' (hcollide (hbinds coins sk pk signature hsign hverify))

/-- A ClientHello, a ServerHello and a ServerAuth with one byte in each variable field. -/
def sampleFrames : Bytes × Bytes × Bytes :=
  ([1, 1, 0, 65] ++ List.replicate 65 7, [2, 1, 0, 65] ++ List.replicate 65 8, [3, 1, 0, 1, 9])

theorem standIn_binds {m m' : Bytes} (h : m.length = 32) (h' : m'.length = 32) :
    standIn.dsa.Binds m m' := by
  intro coins sk pk signature hsign hverify
  have hpad : ∀ x : Bytes, x.length = 32 → padTo 32 x = x := by
    intro x hx
    rw [padTo, List.take_append_of_le_length (by omega), List.take_of_length_le (by omega)]
  rw [MlDsa.sign_eq_ok] at hsign
  obtain rfl := Option.some.inj hsign.2
  unfold MlDsa.verify at hverify
  split at hverify
  · cases hverify
  · have heq : padTo 32 m = padTo 32 m' := by simpa [standIn] using hverify
    rwa [hpad m h, hpad m' h'] at heq

/-- The server's signature does not pass for the client's. -/
theorem transcripts_unambiguous_sample :
    ∃ th th', standIn.kdf.sha256 (sampleFrames.1 ++ sampleFrames.2.1) = .ok th ∧
      standIn.kdf.sha256 (sampleFrames.1 ++ sampleFrames.2.1 ++ sampleFrames.2.2) = .ok th' ∧
      ∀ coins sk pk signature, standIn.dsa.sign coins th sk = .ok signature →
        standIn.dsa.verify th' signature pk = false := by
  let T : Signed := .server sampleFrames.1 sampleFrames.2.1
  let U : Signed := .client sampleFrames.1 sampleFrames.2.1 sampleFrames.2.2
  have hT : T.Accepted := ⟨⟨_, rfl⟩, _, rfl⟩
  have hU : U.Accepted := ⟨⟨_, rfl⟩, ⟨_, rfl⟩, _, rfl⟩
  refine ⟨_, _, rfl, rfl, ?_⟩
  intro coins sk pk signature hsign
  refine Bool.eq_false_iff.mpr fun hverify => ?_
  have hsame := (transcripts_unambiguous hT hU).2 standIn _ _ rfl rfl
    (fun heq => absurd heq (by decide)) (standIn_binds (length_padTo _ _) (length_padTo _ _))
    coins sk pk signature hsign hverify
  exact Signed.noConfusion hsame

end PqcEdr.Crypto
