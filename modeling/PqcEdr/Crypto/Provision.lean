/-
# Provisioning

`crypto/src/identity.cpp` and `tools/keygen.cpp`: key pairs are written to files, and identities
are read from them.

* `provisioned`: two key generations that report success give two identities that pin each other,
  and their handshake goes through; no other file is touched at any moment, and the private keys
  end with mode 0600, but have stood there in full with the mode of their creation.
-/
import PqcEdr.Crypto.Honest
import PqcEdr.Lib.FileSystem

namespace PqcEdr.Crypto

open FileSystem Method

/-! ## 1. `identity.cpp` -/

def writeBytesFile (path : String) (data : Bytes) (restrict_perms : Bool) :
    Method Exn World Unit := do
  let opened ← syscall (World.openTrunc path)
  if opened = false then throw (.runtime_error ("파일 열기 실패: " ++ path))
  else
    let written ← syscall (World.write path data)
    if written = false then throw (.runtime_error ("파일 쓰기 실패: " ++ path))
    else if restrict_perms then
      let restricted ← syscall (World.chmod path 0o600)
      if restricted = false then throw (.runtime_error ("chmod(0600) 실패: " ++ path))
      else pure ()
    else pure ()

def readBytesFile (path : String) : Method Exn World Bytes := do
  let opened ← syscall (World.openRead path)
  match opened with
  | none => throw (.runtime_error ("파일 열기 실패: " ++ path))
  | some data =>
    let sized ← syscall World.access
    if sized = false then throw (.runtime_error ("파일 크기 확인 실패: " ++ path))
    else if data = [] then pure data
    else
      let read ← syscall World.access
      if read = false then throw (.runtime_error ("파일 읽기 실패: " ++ path))
      else pure data

section

variable (OQS_SIG_keypair : (coins : Bytes) → Option KeyPair)

/-- `MlDsa::keypair`. -/
def mlDsaKeypair (coins : Bytes) : Result KeyPair :=
  orThrow (.runtime_error "OQS_SIG_keypair 실패") (OQS_SIG_keypair coins)

def generateIdentityFiles (coins : Bytes) (pre : String) : Method Exn World Unit := do
  let kp ← (liftM (mlDsaKeypair OQS_SIG_keypair coins) : Method Exn World KeyPair)
  writeBytesFile (pre ++ ".pub") kp.public_key false
  writeBytesFile (pre ++ ".key") kp.secret_key true

/-- `main` of `keygen.cpp`, with the arguments behind the program's name. -/
def keygen (coins : Bytes) (args : List String) (w : World) : ℕ × World :=
  match args with
  | [pre] =>
    match (generateIdentityFiles OQS_SIG_keypair coins pre).call w with
    | (.ok _, w) => (0, w)
    | (.error _, w) => (1, w)
  | _ => (1, w)

end

def loadIdentity (dsa : MlDsa) (my_pub_path my_key_path peer_pub_path : String) :
    Method Exn World Identity := do
  let sig_public ← readBytesFile my_pub_path
  let sig_secret ← readBytesFile my_key_path
  let peer_sig_public ← readBytesFile peer_pub_path
  if sig_public.length ≠ dsa.length_public_key ∨ sig_secret.length ≠ dsa.length_secret_key ∨
      peer_sig_public.length ≠ dsa.length_public_key then
    throw (.runtime_error "신원 키 길이 불일치 (파일 손상 또는 알고리즘 불일치)")
  else pure { sig_public := sig_public, sig_secret := sig_secret, peer_sig_public := peer_sig_public }

/-! ## 2. The files that a call touches -/

theorem keeps_writeBytesFile (path : String) (data : Bytes) (restrict_perms : Bool) :
    Keeps [path] (writeBytesFile path data restrict_perms) := by
  unfold writeBytesFile
  refine .bind (.syscall (.openTrunc path)) fun opened => .ite (.throw _) ?_
  refine .bind (.syscall (.write path data)) fun written => .ite (.throw _) (.ite ?_ (.pure _))
  exact .bind (.syscall (.chmod path _)) fun restricted => .ite (.throw _) (.pure _)

theorem keeps_readBytesFile (path : String) : Keeps [] (readBytesFile path) := by
  unfold readBytesFile
  refine .bind (.syscall (.openRead path)) fun opened => ?_
  cases opened with
  | none => exact .throw _
  | some data =>
    refine .bind (.syscall .access) fun sized => .ite (.throw _) (.ite (.pure _) ?_)
    exact .bind (.syscall .access) fun read => .ite (.throw _) (.pure _)

theorem keeps_generateIdentityFiles (OQS_SIG_keypair : Bytes → Option KeyPair) (coins : Bytes)
    (pre : String) :
    Keeps [pre ++ ".pub", pre ++ ".key"] (generateIdentityFiles OQS_SIG_keypair coins pre) := by
  unfold generateIdentityFiles
  refine .bind (.lift _) fun kp => .bind ((keeps_writeBytesFile _ _ _).mono ?_) fun _ =>
    (keeps_writeBytesFile _ _ _).mono ?_
  · simp
  · simp

theorem keeps_loadIdentity (dsa : MlDsa) (my_pub_path my_key_path peer_pub_path : String) :
    Keeps [] (loadIdentity dsa my_pub_path my_key_path peer_pub_path) := by
  unfold loadIdentity
  refine .bind (keeps_readBytesFile _) fun _ => .bind (keeps_readBytesFile _) fun _ => ?_
  exact .bind (keeps_readBytesFile _) fun _ => .ite (.throw _) (.pure _)

/-! ## 3. Calls that returned -/

section

variable {path : String} {data : Bytes} {w w' : World}

/-- The bytes are there, under the mode of the creation first. -/
theorem writeBytesFile_ok {restrict_perms : Bool}
    (h : (writeBytesFile path data restrict_perms).call w = (.ok (), w')) :
    w'.files path = some ⟨data, if restrict_perms then 0o600 else w.openMode path⟩ ∧
      ∃ fs ∈ w.since w', fs path = some ⟨data, w.openMode path⟩ := by
  unfold writeBytesFile at h
  rw [call_syscall_bind, call_guard_eq_ok, Bool.not_eq_false] at h
  obtain ⟨hopened, h⟩ := h
  rw [call_syscall_bind, call_guard_eq_ok, Bool.not_eq_false] at h
  obtain ⟨hwritten, h⟩ := h
  rw [openTrunc_done hopened] at hwritten h
  rw [write_done hwritten, openMode_put] at h
  cases restrict_perms with
  | false =>
    rw [if_neg Bool.false_ne_true, call_pure] at h
    cases h
    exact ⟨files_put _ _ _, _, mem_since_put_put _ _ _ _, files_put _ _ _⟩
  | true =>
    rw [if_pos rfl, call_syscall_bind, call_guard_eq_ok, Bool.not_eq_false] at h
    obtain ⟨hrestricted, h⟩ := h
    obtain ⟨file, hfile, hchmod⟩ := chmod_done hrestricted
    rw [files_put] at hfile
    cases hfile
    rw [hchmod, call_pure] at h
    cases h
    exact ⟨files_put _ _ _, _, mem_since_put (mem_since_put_put _ _ _ _) _ _, files_put _ _ _⟩

theorem readBytesFile_ok (h : (readBytesFile path).call w = (.ok data, w')) :
    ∃ file, w.files path = some file ∧ file.data = data := by
  unfold readBytesFile at h
  rw [call_syscall_bind] at h
  cases hopened : (w.openRead path).1 with
  | none =>
    rw [hopened] at h
    cases h
  | some read =>
    have hdata : read = data := by
      rw [hopened] at h
      dsimp only at h
      rw [call_syscall_bind, call_guard_eq_ok] at h
      obtain ⟨-, h⟩ := h
      split at h
      · cases h
        rfl
      · rw [call_syscall_bind, call_guard_eq_ok] at h
        cases h.2
        rfl
    rw [← hdata]
    exact openRead_done hopened

theorem files_of_readBytesFile {x : Result Bytes} (h : (readBytesFile path).call w = (x, w')) :
    w'.files = w.files := by
  have hkeeps := keeps_readBytesFile path w
  rw [h] at hkeeps
  exact funext fun q => hkeeps.files q List.not_mem_nil

/-- What is loaded is what the files hold, at the lengths of the scheme. -/
theorem loadIdentity_ok {dsa : MlDsa} {my_pub_path my_key_path peer_pub_path : String}
    {id : Identity}
    (h : (loadIdentity dsa my_pub_path my_key_path peer_pub_path).call w = (.ok id, w')) :
    (∃ file, w.files my_pub_path = some file ∧ file.data = id.sig_public) ∧
      (∃ file, w.files my_key_path = some file ∧ file.data = id.sig_secret) ∧
      (∃ file, w.files peer_pub_path = some file ∧ file.data = id.peer_sig_public) ∧
      id.sig_public.length = dsa.length_public_key ∧
      id.sig_secret.length = dsa.length_secret_key ∧
      id.peer_sig_public.length = dsa.length_public_key := by
  unfold loadIdentity at h
  obtain ⟨sig_public, w₁, hpub, h⟩ := call_bind_eq_ok.mp h
  obtain ⟨sig_secret, w₂, hkey, h⟩ := call_bind_eq_ok.mp h
  obtain ⟨peer, w₃, hpeer, h⟩ := call_bind_eq_ok.mp h
  obtain ⟨hlen, h⟩ := call_guard_eq_ok.mp h
  cases h
  push Not at hlen
  have hfiles₁ := files_of_readBytesFile hpub
  have hfiles₂ := (files_of_readBytesFile hkey).trans hfiles₁
  refine ⟨readBytesFile_ok hpub, ?_, ?_, hlen⟩
  · have hread := readBytesFile_ok hkey
    rwa [hfiles₁] at hread
  · have hread := readBytesFile_ok hpeer
    rwa [hfiles₂] at hread

end

/-! ## 4. `keygen` -/

theorem pub_ne_key (a b : String) : a ++ ".pub" ≠ b ++ ".key" := by
  intro h
  have hlast := congrArg (fun s => s.toList.getLast?) h
  simp [String.toList_append, List.getLast?_append] at hlast

/-- What a run that reports success has done. -/
structure Generated (OQS_SIG_keypair : Bytes → Option KeyPair) (coins : Bytes) (pre : String)
    (w w' : World) (kp : KeyPair) : Prop where
  keypair : OQS_SIG_keypair coins = some kp
  pub : w'.files (pre ++ ".pub") = some ⟨kp.public_key, w.openMode (pre ++ ".pub")⟩
  key : w'.files (pre ++ ".key") = some ⟨kp.secret_key, 0o600⟩
  passed : ∃ fs ∈ w.since w',
    fs (pre ++ ".key") = some ⟨kp.secret_key, w.openMode (pre ++ ".key")⟩
  confined : Confined [pre ++ ".pub", pre ++ ".key"] w w'

theorem generated_of_keygen {OQS_SIG_keypair : Bytes → Option KeyPair} {coins : Bytes}
    {pre : String} {w w' : World} (h : keygen OQS_SIG_keypair coins [pre] w = (0, w')) :
    ∃ kp, Generated OQS_SIG_keypair coins pre w w' kp := by
  have hconfined := keeps_generateIdentityFiles OQS_SIG_keypair coins pre w
  unfold keygen at h
  dsimp only at h
  rcases hcall : (generateIdentityFiles OQS_SIG_keypair coins pre).call w with ⟨e | a, w''⟩
  · rw [hcall] at h
    cases h
  · rw [hcall] at h hconfined
    cases h
    unfold generateIdentityFiles at hcall
    obtain ⟨kp, hkp, hcall⟩ := call_lift_bind_eq_ok.mp hcall
    obtain ⟨_, w₁, hpub, hkey⟩ := call_bind_eq_ok.mp hcall
    have hfirst := keeps_writeBytesFile (pre ++ ".pub") kp.public_key false w
    rw [hpub] at hfirst
    have hsecond := keeps_writeBytesFile (pre ++ ".key") kp.secret_key true w₁
    rw [hkey] at hsecond
    have hmode : w₁.openMode (pre ++ ".key") = w.openMode (pre ++ ".key") :=
      hfirst.openMode (by simp [(pub_ne_key pre pre).symm])
    obtain ⟨hfile, hpassed⟩ := writeBytesFile_ok hkey
    rw [hmode] at hpassed
    obtain ⟨fs, hfs, hstood⟩ := hpassed
    have hmem : fs ∈ w.since w' := by
      rw [hfirst.since_append hsecond]
      exact List.mem_append_right _ hfs
    refine ⟨kp, orThrow_eq_ok.mp hkp, ?_, hfile, ⟨fs, hmem, hstood⟩, hconfined⟩
    rw [hsecond.files _ (by simp [pub_ne_key pre pre])]
    exact (writeBytesFile_ok hpub).1

/-- A generation leaves the pair of another name alone. -/
theorem Generated.files_of_other {OQS_SIG_keypair : Bytes → Option KeyPair} {coins : Bytes}
    {a b : String} {w w' : World} {kp : KeyPair} (h : Generated OQS_SIG_keypair coins b w w' kp)
    (hne : a ≠ b) : w'.files (a ++ ".pub") = w.files (a ++ ".pub") ∧
      w'.files (a ++ ".key") = w.files (a ++ ".key") :=
  ⟨h.confined.files _ (by simp [hne, pub_ne_key a b]),
    h.confined.files _ (by simp [hne, (pub_ne_key b a).symm])⟩

/-! ## 5. Both sides -/

/-- Two key generations that report success give identities that pin each other, and these complete
a handshake; the run touches nothing but the four files, and the private keys end with mode 0600,
after each has stood there in full with the mode of its file's creation. -/
theorem provisioned {P : Primitives} (hP : P.Correct) {OQS_SIG_keypair : Bytes → Option KeyPair}
    (hkeys : ∀ coins kp, OQS_SIG_keypair coins = some kp →
      P.dsa.IsKeyPair kp.public_key kp.secret_key)
    {a b : String} (hne : a ≠ b) {coins coins' : Bytes} {w w₁ w₂ w₃ w₄ : World}
    {agent analyzer : Identity} (ha : keygen OQS_SIG_keypair coins [a] w = (0, w₁))
    (hb : keygen OQS_SIG_keypair coins' [b] w₁ = (0, w₂))
    (hagent : (loadIdentity P.dsa (a ++ ".pub") (a ++ ".key") (b ++ ".pub")).call w₂ =
      (.ok agent, w₃))
    (hanalyzer : (loadIdentity P.dsa (b ++ ".pub") (b ++ ".key") (a ++ ".pub")).call w₃ =
      (.ok analyzer, w₄))
    {c c' : Coins} {v v' : CharArray Wire.kRandomLen} (hv : c.random = some v)
    (hv' : c'.random = some v') {capacity : ℕ∞} (hcap : 0 < capacity) :
    (agent.peer_sig_public = analyzer.sig_public ∧ analyzer.peer_sig_public = agent.sig_public) ∧
      (∃ (client server : Channel) (t u : Trace), Dialogue.Settles capacity
        (.start (clientHandshake P agent c) (serverHandshake P analyzer c'))
        ⟨⟨t, .ret client, []⟩, ⟨u, .ret server, []⟩⟩ ∧ client.Mirrors server) ∧
      Confined [a ++ ".pub", a ++ ".key", b ++ ".pub", b ++ ".key"] w w₄ ∧
      w₄.files (a ++ ".key") = some ⟨agent.sig_secret, 0o600⟩ ∧
      w₄.files (b ++ ".key") = some ⟨analyzer.sig_secret, 0o600⟩ ∧
      (∃ fs ∈ w.since w₄,
        fs (a ++ ".key") = some ⟨agent.sig_secret, w.openMode (a ++ ".key")⟩) ∧
      ∃ fs ∈ w.since w₄,
        fs (b ++ ".key") = some ⟨analyzer.sig_secret, w.openMode (b ++ ".key")⟩ := by
  obtain ⟨kpA, hA⟩ := generated_of_keygen ha
  obtain ⟨kpB, hB⟩ := generated_of_keygen hb
  have hload := keeps_loadIdentity P.dsa (a ++ ".pub") (a ++ ".key") (b ++ ".pub") w₂
  have hload' := keeps_loadIdentity P.dsa (b ++ ".pub") (b ++ ".key") (a ++ ".pub") w₃
  rw [hagent] at hload
  rw [hanalyzer] at hload'
  dsimp only at hload hload'
  have hrest : Confined [b ++ ".pub", b ++ ".key"] w₁ w₄ :=
    hB.confined.trans ((hload.trans hload').mono (List.nil_subset _))
  have hsince : w.since w₄ = w.since w₁ ++ (w₁.since w₂ ++ w₂.since w₄) := by
    rw [hA.confined.since_append hrest, hB.confined.since_append (hload.trans hload')]
  have hfiles₃ : w₃.files = w₂.files := funext fun q => hload.files q List.not_mem_nil
  have hfiles₄ : w₄.files = w₂.files := funext fun q =>
    (hload'.files q List.not_mem_nil).trans (hload.files q List.not_mem_nil)
  -- the second generation leaves the first pair alone
  have hpubA := (hB.files_of_other hne).1.trans hA.pub
  have hkeyA := (hB.files_of_other hne).2.trans hA.key
  obtain ⟨⟨f₁, hf₁, hpub⟩, ⟨f₂, hf₂, hkey⟩, ⟨f₃, hf₃, hpeer⟩, -⟩ := loadIdentity_ok hagent
  obtain ⟨⟨f₄, hf₄, hpub'⟩, ⟨f₅, hf₅, hkey'⟩, ⟨f₆, hf₆, hpeer'⟩, -⟩ := loadIdentity_ok hanalyzer
  rw [hfiles₃] at hf₄ hf₅ hf₆
  cases hpubA.symm.trans hf₁
  cases hkeyA.symm.trans hf₂
  cases hB.pub.symm.trans hf₃
  cases hB.pub.symm.trans hf₄
  cases hB.key.symm.trans hf₅
  cases hpubA.symm.trans hf₆
  dsimp only at hpub hkey hpeer hpub' hkey' hpeer'
  have hpairA := hkeys _ _ hA.keypair
  have hpairB := hkeys _ _ hB.keypair
  rw [hpub, hkey] at hpairA
  rw [hpub', hkey'] at hpairB
  obtain ⟨x⟩ := exists_exchange hP hpairA hpairB (hpeer.symm.trans hpub') (hpeer'.symm.trans hpub)
    hv hv'
  refine ⟨⟨hpeer.symm.trans hpub', hpeer'.symm.trans hpub⟩,
    ⟨_, _, _, _, x.settles hcap, x.mirrors⟩, ?_, ?_, ?_, ?_, ?_⟩
  · exact (hA.confined.mono (by simp)).trans (hrest.mono (by simp))
  · rw [hfiles₄, hkeyA, hkey]
  · rw [hfiles₄, hB.key, hkey']
  · obtain ⟨fs, hfs, hpassed⟩ := hA.passed
    exact ⟨fs, by simp [hsince, hfs], hkey ▸ hpassed⟩
  · obtain ⟨fs, hfs, hpassed⟩ := hB.passed
    have hmode : w₁.openMode (b ++ ".key") = w.openMode (b ++ ".key") :=
      hA.confined.openMode (by simp [hne.symm, (pub_ne_key a b).symm])
    exact ⟨fs, by simp [hsince, hfs], hkey' ▸ hmode ▸ hpassed⟩

/-! ## 6. Where no call fails -/

section

variable {path : String} {data : Bytes} {w : World}

theorem writeBytesFile_of_answers (h : w.answers = []) (path : String) (data : Bytes)
    (restrict_perms : Bool) :
    ∃ w', (writeBytesFile path data restrict_perms).call w = (.ok (), w') ∧ w'.answers = [] := by
  have hopened : (w.answered.put path ⟨[], w.openMode path⟩).answers = [] := by simp [h]
  have hwritten : ∀ mode, (((w.answered.put path ⟨[], w.openMode path⟩).answered.put path
      ⟨data, mode⟩)).answers = [] := by simp [h]
  unfold writeBytesFile
  rw [call_syscall_bind, openTrunc_of_answers h, if_neg (by simp), call_syscall_bind,
    write_of_answers hopened, if_neg (by simp)]
  cases restrict_perms with
  | false => exact ⟨_, rfl, hwritten _⟩
  | true =>
    rw [if_pos rfl, call_syscall_bind, chmod_of_answers (hwritten _) (files_put _ _ _),
      if_neg (by simp)]
    exact ⟨_, rfl, by simp [h]⟩

theorem readBytesFile_of_answers (h : w.answers = []) {file : File}
    (hfile : w.files path = some file) :
    ∃ w', (readBytesFile path).call w = (.ok file.data, w') ∧ w'.answers = [] := by
  have hopened : w.answered.answers = [] := by simp [World.answered, h]
  have hsized : w.answered.answered.answers = [] := by simp [World.answered, h]
  unfold readBytesFile
  rw [call_syscall_bind, openRead_of_answers h hfile]
  dsimp only
  rw [call_syscall_bind, access_of_answers hopened, if_neg (by simp)]
  by_cases hempty : file.data = []
  · rw [if_pos hempty]
    exact ⟨_, rfl, hsized⟩
  · rw [if_neg hempty, call_syscall_bind, access_of_answers hsized, if_neg (by simp)]
    exact ⟨_, rfl, by simp [World.answered, h]⟩

theorem keygen_of_answers {OQS_SIG_keypair : Bytes → Option KeyPair} {coins : Bytes} {kp : KeyPair}
    (hkp : OQS_SIG_keypair coins = some kp) (h : w.answers = []) (pre : String) :
    ∃ w', keygen OQS_SIG_keypair coins [pre] w = (0, w') ∧ w'.answers = [] := by
  obtain ⟨w₁, hpub, h₁⟩ := writeBytesFile_of_answers h (pre ++ ".pub") kp.public_key false
  obtain ⟨w₂, hkey, h₂⟩ := writeBytesFile_of_answers h₁ (pre ++ ".key") kp.secret_key true
  have hcall : (generateIdentityFiles OQS_SIG_keypair coins pre).call w = (.ok (), w₂) :=
    call_lift_bind_eq_ok.mpr ⟨kp, orThrow_eq_ok.mpr hkp, call_bind_eq_ok.mpr ⟨(), w₁, hpub, hkey⟩⟩
  exact ⟨w₂, by rw [keygen, hcall], h₂⟩

theorem loadIdentity_of_answers {dsa : MlDsa} {my_pub_path my_key_path peer_pub_path : String}
    {f₁ f₂ f₃ : File} (h : w.answers = []) (h₁ : w.files my_pub_path = some f₁)
    (h₂ : w.files my_key_path = some f₂) (h₃ : w.files peer_pub_path = some f₃)
    (hlen : f₁.data.length = dsa.length_public_key ∧ f₂.data.length = dsa.length_secret_key ∧
      f₃.data.length = dsa.length_public_key) :
    ∃ w', (loadIdentity dsa my_pub_path my_key_path peer_pub_path).call w =
      (.ok ⟨f₁.data, f₂.data, f₃.data⟩, w') ∧ w'.answers = [] := by
  obtain ⟨w₁, hpub, ha₁⟩ := readBytesFile_of_answers h h₁
  rw [← files_of_readBytesFile hpub] at h₂ h₃
  obtain ⟨w₂, hkey, ha₂⟩ := readBytesFile_of_answers ha₁ h₂
  rw [← files_of_readBytesFile hkey] at h₃
  obtain ⟨w₃, hpeer, ha₃⟩ := readBytesFile_of_answers ha₂ h₃
  refine ⟨w₃, ?_, ha₃⟩
  unfold loadIdentity
  refine call_bind_eq_ok.mpr ⟨_, w₁, hpub, call_bind_eq_ok.mpr ⟨_, w₂, hkey, ?_⟩⟩
  refine call_bind_eq_ok.mpr ⟨_, w₃, hpeer, call_guard_eq_ok.mpr ⟨?_, rfl⟩⟩
  push Not
  exact hlen

/-- Both generations succeed, and both sides can load. -/
theorem provisioning_of_answers {dsa : MlDsa} {OQS_SIG_keypair : Bytes → Option KeyPair}
    (hkeys : ∀ coins kp, OQS_SIG_keypair coins = some kp →
      dsa.IsKeyPair kp.public_key kp.secret_key)
    {a b : String} (hne : a ≠ b) {coins coins' : Bytes} {kp kp' : KeyPair}
    (hkp : OQS_SIG_keypair coins = some kp) (hkp' : OQS_SIG_keypair coins' = some kp')
    (h : w.answers = []) :
    ∃ w₁ w₂ w₃ w₄ agent analyzer, keygen OQS_SIG_keypair coins [a] w = (0, w₁) ∧
      keygen OQS_SIG_keypair coins' [b] w₁ = (0, w₂) ∧
      (loadIdentity dsa (a ++ ".pub") (a ++ ".key") (b ++ ".pub")).call w₂ = (.ok agent, w₃) ∧
      (loadIdentity dsa (b ++ ".pub") (b ++ ".key") (a ++ ".pub")).call w₃ =
        (.ok analyzer, w₄) := by
  obtain ⟨w₁, ha, h₁⟩ := keygen_of_answers hkp h a
  obtain ⟨w₂, hb, h₂⟩ := keygen_of_answers hkp' h₁ b
  obtain ⟨kpA, hA⟩ := generated_of_keygen ha
  obtain ⟨kpB, hB⟩ := generated_of_keygen hb
  have hpairA := hkeys _ _ hA.keypair
  have hpairB := hkeys _ _ hB.keypair
  have hpubA := (hB.files_of_other hne).1.trans hA.pub
  have hkeyA := (hB.files_of_other hne).2.trans hA.key
  obtain ⟨w₃, hagent, h₃⟩ := loadIdentity_of_answers h₂ hpubA hkeyA hB.pub
    ⟨hpairA.length_public_key, hpairA.length_secret_key, hpairB.length_public_key⟩
  have hload := keeps_loadIdentity dsa (a ++ ".pub") (a ++ ".key") (b ++ ".pub") w₂
  rw [hagent] at hload
  have hkeep : ∀ q, w₃.files q = w₂.files q := fun q => hload.files q List.not_mem_nil
  obtain ⟨w₄, hanalyzer, -⟩ := loadIdentity_of_answers h₃ ((hkeep _).trans hB.pub)
    ((hkeep _).trans hB.key) ((hkeep _).trans hpubA)
    ⟨hpairB.length_public_key, hpairB.length_secret_key, hpairA.length_public_key⟩
  exact ⟨w₁, w₂, w₃, w₄, _, _, ha, hb, hagent, hanalyzer⟩

end

/-- Two pairs of the stand-in, on an empty file system whose umask leaves new files readable. -/
theorem provisioned_standIn : ∃ (w w₄ : World) (agent analyzer : Identity),
    agent.peer_sig_public = analyzer.sig_public ∧ analyzer.peer_sig_public = agent.sig_public ∧
      w₄.files "agent.key" = some ⟨agent.sig_secret, 0o600⟩ ∧
      w₄.files "analyzer.key" = some ⟨analyzer.sig_secret, 0o600⟩ ∧
      (∃ fs ∈ w.since w₄, fs "agent.key" = some ⟨agent.sig_secret, 0o644⟩) ∧
      ∃ fs ∈ w.since w₄, fs "analyzer.key" = some ⟨analyzer.sig_secret, 0o644⟩ := by
  let w : World := { files := fun _ => none, umask := 0o22 }
  let G : Bytes → Option KeyPair := fun coins => coins.head?.map fun k => ⟨[k], [k]⟩
  have hkeys : ∀ coins kp, G coins = some kp →
      paddedStandIn.dsa.IsKeyPair kp.public_key kp.secret_key := by
    intro coins kp hkp
    obtain ⟨k, -, rfl⟩ := Option.map_eq_some_iff.mp hkp
    exact standIn_isKeyPair k
  have hkpA : G [1] = some ⟨[1], [1]⟩ := rfl
  have hkpB : G [2] = some ⟨[2], [2]⟩ := rfl
  have hnames : "agent" ≠ "analyzer" := by decide
  have hanswers : w.answers = [] := rfl
  obtain ⟨w₁, w₂, w₃, w₄, agent, analyzer, ha, hb, hagent, hanalyzer⟩ :=
    provisioning_of_answers hkeys hnames hkpA hkpB hanswers
  have hcoins : (coinsOf 3).random ≠ none ∧ (coinsOf 4).random ≠ none := by decide
  obtain ⟨v, hv⟩ := Option.ne_none_iff_exists'.mp hcoins.1
  obtain ⟨v', hv'⟩ := Option.ne_none_iff_exists'.mp hcoins.2
  obtain ⟨⟨hpeer, hpeer'⟩, -, -, hkey, hkey', hpassed, hpassed'⟩ := provisioned
    paddedStandIn_correct hkeys hnames ha hb hagent hanalyzer hv hv' (one_pos : (0 : ℕ∞) < 1)
  have hmode : w.openMode ("agent" ++ ".key") = 0o644 := by decide
  have hmode' : w.openMode ("analyzer" ++ ".key") = 0o644 := by decide
  rw [hmode] at hpassed
  rw [hmode'] at hpassed'
  exact ⟨w, w₄, agent, analyzer, hpeer, hpeer', hkey, hkey', hpassed, hpassed'⟩

end PqcEdr.Crypto
