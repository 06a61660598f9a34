/-
# The handshake codec as a bijection

The four messages of `wire.cpp` under one type.  Each parser accepts the frames its serializer
builds from a well formed message and no others, and what it does not accept it refuses with a
`WireError`.

* `parse_eq_ok`: acceptance is serialization read backwards.
* `parse_total`: a frame is parsed or refused, and every refusal is a `WireError`.
* `wire_codec_bijection`: the format, all of it.
-/
import PqcEdr.Crypto.Wire

namespace PqcEdr.Crypto.Wire

open BigEndian

/-! ## 1. One type of messages -/

/-- A handshake message. -/
inductive Message
  | clientHello (m : ClientHello)
  | serverHello (m : ServerHello)
  | serverAuth (m : ServerAuth)
  | clientAuth (m : ClientAuth)
  deriving DecidableEq, Repr

namespace Message

def type : Message → MsgType
  | clientHello _ => .ClientHello
  | serverHello _ => .ServerHello
  | serverAuth _ => .ServerAuth
  | clientAuth _ => .ClientAuth

def serialize : Message → Result Bytes
  | clientHello m => m.serialize
  | serverHello m => m.serialize
  | serverAuth m => m.serialize
  | clientAuth m => m.serialize

/-- What follows the header. -/
def payload : Message → Bytes
  | clientHello m => m.client_random ++ m.x25519_pub ++ m.mlkem_pub
  | serverHello m => m.server_random ++ m.x25519_pub ++ m.mlkem_ct
  | serverAuth m => m.signature
  | clientAuth m => m.signature

/-- The fixed fields have their 32 bytes and the variable one is not empty. -/
def WellFormed : Message → Prop
  | clientHello m => m.client_random.length = 32 ∧ m.x25519_pub.length = 32 ∧ m.mlkem_pub ≠ []
  | serverHello m => m.server_random.length = 32 ∧ m.x25519_pub.length = 32 ∧ m.mlkem_ct ≠ []
  | serverAuth m => m.signature ≠ []
  | clientAuth m => m.signature ≠ []

instance instDecidableWellFormed : (m : Message) → Decidable m.WellFormed
  | clientHello _ => inferInstanceAs (Decidable (_ ∧ _ ∧ _))
  | serverHello _ => inferInstanceAs (Decidable (_ ∧ _ ∧ _))
  | serverAuth m => inferInstanceAs (Decidable (m.signature ≠ []))
  | clientAuth m => inferInstanceAs (Decidable (m.signature ≠ []))

end Message

/-- The parser of a type. -/
def parse (t : MsgType) (f : Bytes) : Result Message :=
  match t with
  | .ClientHello => (parseClientHello f).map .clientHello
  | .ServerHello => (parseServerHello f).map .serverHello
  | .ServerAuth => (parseServerAuth f).map .serverAuth
  | .ClientAuth => (parseClientAuth f).map .clientAuth

/-! ## 2. Acceptance -/

theorem map_eq_ok {α β : Type} {x : Result α} {f : α → β} {b : β} :
    x.map f = .ok b ↔ ∃ a, x = .ok a ∧ f a = b := by
  cases x <;> simp [Except.map]

/-- The serializer frames the payload of a message whose fixed fields have their lengths. -/
theorem serialize_eq_ok {m : Message} {f : Bytes} (h : m.WellFormed) :
    m.serialize = .ok f ↔ frame m.type m.payload = .ok f := by
  cases m with
  | clientHello m => exact serializeHello_eq_ok.trans (and_iff_right ⟨h.1, h.2.1⟩)
  | serverHello m => exact serializeHello_eq_ok.trans (and_iff_right ⟨h.1, h.2.1⟩)
  | serverAuth m => exact Iff.rfl
  | clientAuth m => exact Iff.rfl

/-- A parser accepts `f` as `m` exactly when `m` is a well formed message of its type that is
serialized to `f`. -/
theorem parse_eq_ok {t : MsgType} {f : Bytes} {m : Message} :
    parse t f = .ok m ↔ m.type = t ∧ m.WellFormed ∧ m.serialize = .ok f := by
  constructor
  · intro h
    cases t with
    | ClientHello =>
      obtain ⟨a, ha, rfl⟩ := map_eq_ok.mp h
      obtain ⟨hne, hser⟩ := parseClientHello_eq_ok.mp ha
      obtain ⟨⟨h₁, h₂⟩, -⟩ := serializeHello_eq_ok.mp hser
      exact ⟨rfl, ⟨h₁, h₂, hne⟩, hser⟩
    | ServerHello =>
      obtain ⟨a, ha, rfl⟩ := map_eq_ok.mp h
      obtain ⟨hne, hser⟩ := parseServerHello_eq_ok.mp ha
      obtain ⟨⟨h₁, h₂⟩, -⟩ := serializeHello_eq_ok.mp hser
      exact ⟨rfl, ⟨h₁, h₂, hne⟩, hser⟩
    | ServerAuth =>
      obtain ⟨a, ha, rfl⟩ := map_eq_ok.mp h
      exact ⟨rfl, parseServerAuth_eq_ok.mp ha⟩
    | ClientAuth =>
      obtain ⟨a, ha, rfl⟩ := map_eq_ok.mp h
      exact ⟨rfl, parseClientAuth_eq_ok.mp ha⟩
  · rintro ⟨rfl, hwf, hser⟩
    cases m with
    | clientHello m => exact map_eq_ok.mpr ⟨m, parseClientHello_eq_ok.mpr ⟨hwf.2.2, hser⟩, rfl⟩
    | serverHello m => exact map_eq_ok.mpr ⟨m, parseServerHello_eq_ok.mpr ⟨hwf.2.2, hser⟩, rfl⟩
    | serverAuth m => exact map_eq_ok.mpr ⟨m, parseServerAuth_eq_ok.mpr ⟨hwf, hser⟩, rfl⟩
    | clientAuth m => exact map_eq_ok.mpr ⟨m, parseClientAuth_eq_ok.mpr ⟨hwf, hser⟩, rfl⟩

/-! ## 3. Refusal -/

/-- Whatever is thrown is a `WireError`. -/
def ThrowsWireError {α : Type} (x : Result α) : Prop :=
  ∀ e, x = .error e → ∃ what, e = .WireError what

section

variable {α β : Type}

theorem throwsWireError_pure (a : α) : ThrowsWireError (pure a) := by
  intro e h
  cases h

theorem throwsWireError_throw (what : String) :
    ThrowsWireError (throw (.WireError what) : Result α) := by
  intro e h
  exact ⟨what, (Except.error.inj h).symm⟩

theorem ThrowsWireError.bind {x : Result α} {f : α → Result β} (hx : ThrowsWireError x)
    (hf : ∀ a, ThrowsWireError (f a)) : ThrowsWireError (x >>= f) := by
  intro e h
  cases x with
  | error e' =>
    have heq : (Except.error e' : Result β) = .error e := h
    exact hx e (congrArg Except.error (Except.error.inj heq))
  | ok a => exact hf a e h

theorem ThrowsWireError.ite {P : Prop} [Decidable P] {x y : Result α} (hx : ThrowsWireError x)
    (hy : ThrowsWireError y) : ThrowsWireError (if P then x else y) := by
  by_cases hP : P
  · rwa [if_pos hP]
  · rwa [if_neg hP]

theorem ThrowsWireError.map {x : Result α} {f : α → β} (hx : ThrowsWireError x) :
    ThrowsWireError (x.map f) := by
  intro e h
  cases x with
  | error e' => exact hx e (congrArg Except.error (Except.error.inj h))
  | ok a => cases h

end

theorem Reader.need_throws (r : Reader) (n : ℕ) : ThrowsWireError (r.need n) := by
  rw [Reader.need]
  by_cases h : r.pos + n > r.buf.length
  · rw [dif_pos h]
    exact throwsWireError_throw _
  · rw [dif_neg h]
    exact throwsWireError_pure _

theorem Reader.bytes_throws (r : Reader) (n : ℕ) : ThrowsWireError (r.bytes n) :=
  (r.need_throws n).bind fun _ => throwsWireError_pure _

theorem openFrame_throws (f : Bytes) (t : MsgType) : ThrowsWireError (openFrame f t) := by
  have hu8 : ∀ r : Reader, ThrowsWireError r.u8 :=
    fun r => (r.need_throws 1).bind fun _ => throwsWireError_pure _
  have hu16 : ∀ r : Reader, ThrowsWireError r.u16 :=
    fun r => (r.need_throws 2).bind fun _ => throwsWireError_pure _
  refine (hu8 _).bind fun x => (hu8 _).bind fun y => (hu16 _).bind fun z => ?_
  refine (throwsWireError_throw _).ite ((throwsWireError_throw _).ite ?_)
  exact (throwsWireError_throw _).ite (throwsWireError_pure _)

theorem parseHello_throws {M : Type} (mk : Bytes → Bytes → Bytes → M) (t : MsgType)
    (missing : String) (f : Bytes) : ThrowsWireError (parseHello mk t missing f) := by
  refine (openFrame_throws f t).bind fun r => (r.bytes_throws _).bind fun x => ?_
  refine (x.2.bytes_throws _).bind fun y => (y.2.bytes_throws _).bind fun z => ?_
  exact (throwsWireError_throw _).ite (throwsWireError_pure _)

theorem parseAuth_throws {M : Type} (mk : Bytes → M) (t : MsgType) (missing : String)
    (f : Bytes) : ThrowsWireError (parseAuth mk t missing f) := by
  refine (openFrame_throws f t).bind fun r => (r.bytes_throws _).bind fun x => ?_
  exact (throwsWireError_throw _).ite (throwsWireError_pure _)

theorem parse_throws (t : MsgType) (f : Bytes) : ThrowsWireError (parse t f) := by
  cases t with
  | ClientHello => exact (parseHello_throws _ _ _ f).map
  | ServerHello => exact (parseHello_throws _ _ _ f).map
  | ServerAuth => exact (parseAuth_throws _ _ _ f).map
  | ClientAuth => exact (parseAuth_throws _ _ _ f).map

/-- Every byte string is parsed or refused. -/
theorem parse_total (t : MsgType) (f : Bytes) :
    (∃ m, parse t f = .ok m) ∨ ∃ what, parse t f = .error (.WireError what) := by
  cases h : parse t f with
  | ok m => exact Or.inl ⟨m, rfl⟩
  | error e =>
    obtain ⟨what, rfl⟩ := parse_throws t f e h
    exact Or.inr ⟨what, rfl⟩

/-! ## 4. What an accepted frame looks like -/

section

variable {t t' : MsgType} {f g : Bytes} {m m' : Message}

theorem frame_of_parse (h : parse t f = .ok m) : frame t m.payload = .ok f := by
  obtain ⟨rfl, hwf, hser⟩ := parse_eq_ok.mp h
  exact (serialize_eq_ok hwf).mp hser

/-- The type of a frame is in its first byte. -/
theorem type_unique (h : parse t f = .ok m) (h' : parse t' f = .ok m') : t = t' ∧ m = m' := by
  obtain ⟨-, hf⟩ := frame_eq_ok.mp (frame_of_parse h)
  obtain ⟨-, hf'⟩ := frame_eq_ok.mp (frame_of_parse h')
  have hcode : t.code = t'.code := (List.cons.inj (hf.symm.trans hf')).1
  have htype : t = t' := by
    cases t <;> cases t' <;> first | rfl | exact absurd hcode (by decide)
  subst htype
  exact ⟨rfl, Except.ok.inj (h.symm.trans h')⟩

/-- An accepted frame, cut short or extended, is accepted by no parser. -/
theorem not_accepted_of_extends (h : parse t f = .ok m) (hne : f ≠ g) (hpre : f <+: g ∨ g <+: f)
    (h' : parse t' g = .ok m') : False := by
  have hf : IsFrame f := ⟨_, _, frame_of_parse h⟩
  have hg : IsFrame g := ⟨_, _, frame_of_parse h'⟩
  rcases hpre with ⟨x, hx⟩ | ⟨x, hx⟩
  · exact hne (hf.append_inj hg (hx.trans (List.append_nil g).symm)).1
  · exact hne (hf.append_inj hg ((List.append_nil f).trans hx.symm)).1

end

/-! ## 5. The theorem -/

/-- **The codec is a bijection on its format.**  Between the well formed messages of a type that
fit a frame and the byte strings its parser accepts, `serialize` and `parse` undo each other; all
other byte strings are refused with a `WireError`, among them whatever is cut short, extended, of
another type or version, and no byte string is accepted as two types. -/
theorem wire_codec_bijection :
    (∀ t f m, parse t f = .ok m ↔ m.type = t ∧ m.WellFormed ∧ m.serialize = .ok f) ∧
      (∀ t f, (∃ m, parse t f = .ok m) ∨ ∃ what, parse t f = .error (.WireError what)) ∧
      (∀ m : Message, m.WellFormed → m.payload.length ≤ 65535 →
        ∃ f, m.serialize = .ok f ∧ parse m.type f = .ok m) ∧
      (∀ t f m, parse t f = .ok m → f.length = 4 + m.payload.length ∧
        f[0]? = some t.code ∧ f[1]? = some kVersion) ∧
      (∀ t t' f m m', parse t f = .ok m → parse t' f = .ok m' → t = t' ∧ m = m') ∧
      ∀ t t' f g m m', parse t f = .ok m → f ≠ g → f <+: g ∨ g <+: f → parse t' g ≠ .ok m' := by
  refine ⟨fun _ _ _ => parse_eq_ok, parse_total, ?_, ?_, fun _ _ _ _ _ => type_unique, ?_⟩
  · intro m hwf hlen
    obtain ⟨f, hf⟩ : ∃ f, frame m.type m.payload = .ok f := ⟨_, frame_eq_ok.mpr ⟨hlen, rfl⟩⟩
    have hser := (serialize_eq_ok hwf).mpr hf
    exact ⟨f, hser, parse_eq_ok.mpr ⟨rfl, hwf, hser⟩⟩
  · intro t f m h
    obtain ⟨-, hf⟩ := frame_eq_ok.mp (frame_of_parse h)
    subst hf
    refine ⟨?_, rfl, rfl⟩
    simp only [List.length_cons, List.length_append, length_put16]
    omega
  · intro t t' f g m m' h hne hpre h'
    exact not_accepted_of_extends h hne hpre h'

/-- A one-byte signature: serialized, and parsed back. -/
theorem wire_codec_bijection_server_auth :
    ∃ f, (Message.serverAuth ⟨[7]⟩).serialize = .ok f ∧
      parse .ServerAuth f = .ok (.serverAuth ⟨[7]⟩) :=
  wire_codec_bijection.2.2.1 (.serverAuth ⟨[7]⟩) (by decide) (by decide)

end PqcEdr.Crypto.Wire
