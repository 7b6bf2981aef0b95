/-
This file is about opening a dump nobody has vouched for. `NewReader` takes the
parameters of the key derivation from the stream, and each frame says how long it
is; both are used before anything has been authenticated. So next to what the
calls answer with, this file follows what they ask of the runtime: a panic of the
key derivation, the buffer that is allocated for a frame, and the length of the
nonce, on which the cipher panics when it is wrong.

Reading always comes to an end, and the nonces are right. But a header can name no
rounds or no threads, and a frame can announce up to two gigabytes: these streams,
and no others, are not safe to open.
-/

import ConsensusDB.DumpReader

namespace ConsensusDB

open Wire Stream

namespace Backup

/-! ### What reading asks of the runtime -/

/-- The buffer of a frame, and the nonce a frame is opened under. -/
inductive Effect where
  | allocate (size : Nat)
  | decrypt (nonceSize : Nat)

/-- A sealed chunk: 64 KiB and the tag of the cipher. -/
def sealedChunk : Nat := chunkSize + 16

/-- A buffer of at most a sealed chunk; a nonce of the length the cipher does not panic on. -/
def Effect.Harmless : Effect → Prop
  | .allocate size => size ≤ sealedChunk
  | .decrypt nonceSize => nonceSize = 12

/-- What `next` asks for. -/
def EncReader.nextEffects (reader : EncReader) : List Effect :=
  match readFull 4 reader.src with
  | .error _ => []
  | .ok (head, body) =>
    .allocate (announced head) ::
      match readFull (announced head) body with
      | .error _ => []
      | .ok _ => [.decrypt (nonce reader.noncePfx reader.counter (marksLast head)).length]

/-- What one `Read` asks for. -/
def EncReader.readEffects (cipher : Cipher) (reader : EncReader) : List Effect :=
  if reader.plain = [] then
    if reader.done then []
    else
      reader.nextEffects ++
        match _stepped : reader.next cipher with
        | .error _ => []
        | .ok later => EncReader.readEffects cipher later
  else []
termination_by reader.src.bytes.length
decreasing_by exact length_of_next cipher reader later _stepped

/-- A plain dump is read from the source itself. -/
def Reader.readEffects (cipher : Cipher) : Reader → List Effect
  | .plain _ => []
  | .encrypted reader => reader.readEffects cipher

/-- What calls of `Read` ask for, up to the first error. -/
def Reader.effects (cipher : Cipher) : List ReadCall → Reader → List Effect
  | [], _ => []
  | call :: rest, reader =>
    reader.readEffects cipher ++
      match reader.read cipher call with
      | ((_, some _), _) => []
      | ((_, none), later) => Reader.effects cipher rest later

/-- A stream is safe to open with a password: neither opening it nor reading it panics, reading
comes to an end, and no frame is given more room than a sealed chunk takes. -/
structure SafeToOpen (cipher : Cipher) (source : Source Err) (password : Bytes) : Prop where
  opens : ∀ text, newReader cipher source password ≠ .panicked text
  ends : ∀ reader, newReader cipher source password = .opened reader →
    ∃ limit, ∀ calls : List ReadCall, (∀ call ∈ calls, 0 < call.size) → limit ≤ calls.length →
      ∃ err, (reader.readAll cipher calls).2 = some err
  harmless : ∀ reader, newReader cipher source password = .opened reader →
    ∀ calls : List ReadCall, (∀ call ∈ calls, 0 < call.size) →
      ∀ effect ∈ reader.effects cipher calls, effect.Harmless

/-! ### Streams that are safe -/

/-- Frames that open one after another, none of them marked as the last. -/
def OpenFrames (cipher : Cipher) (key noncePfx : Bytes) : UInt64 → List (Bytes × Bytes) → Prop
  | _, [] => True
  | counter, (head, sealed) :: rest =>
    (head.length = 4 ∧ sealed.length = announced head ∧ marksLast head = false ∧
      (cipher.gcmOpen key (nonce noncePfx counter false) sealed).isSome) ∧
    OpenFrames cipher key noncePfx (counter + 1) rest

/-- After any number of frames that open, the next one announces no more than a sealed chunk. -/
def SmallFrames (cipher : Cipher) (key noncePfx : Bytes) (counter : UInt64) (bytes : Bytes) :
    Prop :=
  ∀ front head tail, OpenFrames cipher key noncePfx counter front → head.length = 4 →
    bytes = (front.map fun frame => frame.1 ++ frame.2).flatten ++ (head ++ tail) →
    announced head ≤ sealedChunk

/-- A stream that is not an encrypted dump with a password for it; or that names rounds and threads
for the key derivation, and only frames of at most a sealed chunk as far as they open. -/
def Tame (cipher : Cipher) (source : Source Err) (password : Bytes) : Prop :=
  password ≠ [] → ∀ params salt noncePfx frames,
    EncHeader source.bytes params salt noncePfx frames →
      kdfRounds params ≠ 0 ∧ kdfThreads params ≠ 0 ∧
        SmallFrames cipher
          (cipher.idKey password salt (kdfRounds params) (kdfMemory params) (kdfThreads params))
          noncePfx 0 frames

section

variable (cipher : Cipher)

/-! ### What is asked for up to the end -/

/-- What reading up to the end asks for. -/
def EncReader.effectsToEnd (reader : EncReader) : List Effect :=
  if reader.done then []
  else
    reader.nextEffects ++
      match _stepped : reader.next cipher with
      | .error _ => []
      | .ok later => EncReader.effectsToEnd later
termination_by reader.src.bytes.length
decreasing_by exact length_of_next cipher reader later _stepped

theorem effectsToEnd_held (reader : EncReader) (held : Bytes) :
    EncReader.effectsToEnd cipher { reader with plain := held } = reader.effectsToEnd cipher := by
  rw [EncReader.effectsToEnd]
  conv_rhs => rw [EncReader.effectsToEnd]
  rfl

theorem effectsToEnd_of_done (reader : EncReader) (done : reader.done = true) :
    reader.effectsToEnd cipher = [] := by
  rw [EncReader.effectsToEnd, if_pos done]

theorem effectsToEnd_of_error (reader : EncReader) (err : Err) (going : reader.done = false)
    (failed : reader.next cipher = .error err) :
    reader.effectsToEnd cipher = reader.nextEffects := by
  rw [EncReader.effectsToEnd, if_neg (by rw [going]; exact Bool.false_ne_true)]
  split
  · exact List.append_nil _
  · rename_i succeeded
    cases succeeded.symm.trans failed

theorem effectsToEnd_of_next (reader later : EncReader) (going : reader.done = false)
    (stepped : reader.next cipher = .ok later) :
    reader.effectsToEnd cipher = reader.nextEffects ++ later.effectsToEnd cipher := by
  rw [EncReader.effectsToEnd, if_neg (by rw [going]; exact Bool.false_ne_true)]
  split
  · rename_i failed
    cases failed.symm.trans stepped
  · rename_i other succeeded
    cases succeeded.symm.trans stepped
    rfl

/-- What one read asks for is the front of what is asked for up to the end, and all of it when the
read ends with an error. -/
theorem encRead_effects (size : Nat) (reader : EncReader) :
    reader.effectsToEnd cipher = reader.readEffects cipher ++
      match reader.read cipher size with
      | ((_, some _), _) => []
      | ((_, none), later) => later.effectsToEnd cipher := by
  fun_induction EncReader.read cipher size reader with
  | case1 reader empty done =>
    rw [EncReader.readEffects, if_pos empty, if_pos done, effectsToEnd_of_done cipher reader done]
    rfl
  | case2 reader empty going err failed =>
    rw [EncReader.readEffects, if_pos empty, if_neg going,
      effectsToEnd_of_error cipher reader err (Bool.eq_false_iff.mpr going) failed]
    split
    · rw [List.append_nil, List.append_nil]
    · rename_i succeeded
      cases succeeded.symm.trans failed
  | case3 reader empty going later stepped inductionHypothesis =>
    have asked : reader.readEffects cipher =
        reader.nextEffects ++ later.readEffects cipher := by
      rw [EncReader.readEffects, if_pos empty, if_neg going]
      split
      · rename_i failed
        cases failed.symm.trans stepped
      · rename_i other succeeded
        cases succeeded.symm.trans stepped
        rfl
    rw [effectsToEnd_of_next cipher reader later (Bool.eq_false_iff.mpr going) stepped,
      inductionHypothesis, asked, List.append_assoc]
  | case4 reader nonempty =>
    rw [EncReader.readEffects, if_neg nonempty, List.nil_append]
    exact (effectsToEnd_held cipher reader _).symm

def Reader.effectsToEnd : Reader → List Effect
  | .plain _ => []
  | .encrypted reader => reader.effectsToEnd cipher

theorem read_effects (reader : Reader) (call : ReadCall) :
    reader.effectsToEnd cipher = reader.readEffects cipher ++
      match reader.read cipher call with
      | ((_, some _), _) => []
      | ((_, none), later) => later.effectsToEnd cipher := by
  cases reader with
  | plain source =>
    rcases read : (Reader.plain source).read cipher call with ⟨⟨data, err⟩, later⟩
    obtain ⟨_, rfl⟩ := Prod.mk.inj read
    cases err with
    | some err => rfl
    | none => rfl
  | encrypted reader =>
    have front := encRead_effects cipher call.size reader
    rcases read : reader.read cipher call.size with ⟨⟨data, err⟩, later⟩
    simp only [Reader.effectsToEnd, Reader.readEffects, Reader.read, read, Prod.map, id]
    rw [read] at front
    cases err with
    | some err => exact front
    | none => exact front

/-- Reads ask for a front part of what is asked for up to the end, and for all of it once they have
come to the end. -/
theorem effects_front (calls : List ReadCall) (reader : Reader) :
    reader.effects cipher calls <+: reader.effectsToEnd cipher ∧
      ((reader.readAll cipher calls).2.isSome →
        reader.effects cipher calls = reader.effectsToEnd cipher) := by
  induction calls generalizing reader with
  | nil => exact ⟨List.nil_prefix, nofun⟩
  | cons call rest inductionHypothesis =>
    rw [read_effects cipher reader call, Reader.effects, Reader.readAll]
    rcases read : reader.read cipher call with ⟨⟨data, err⟩, later⟩
    cases err with
    | some err => exact ⟨List.prefix_rfl, fun _ => rfl⟩
    | none =>
      obtain ⟨front, whole⟩ := inductionHypothesis later
      exact ⟨(List.prefix_append_right_inj _).mpr front,
        fun ended => congrArg (reader.readEffects cipher ++ ·) (whole ended)⟩

theorem harmless_reads_iff (reader : Reader) :
    (∀ calls : List ReadCall, (∀ call ∈ calls, 0 < call.size) →
      ∀ effect ∈ reader.effects cipher calls, effect.Harmless) ↔
      ∀ effect ∈ reader.effectsToEnd cipher, effect.Harmless := by
  constructor
  · intro harmless effect member
    -- one byte at a time, reading comes to the end
    let calls := List.replicate ((reader.yields cipher).bytes.length + 1) (⟨1, 0, false⟩ : ReadCall)
    have positive : ∀ call ∈ calls, 0 < call.size := by
      intro call isCall
      rw [List.eq_of_mem_replicate isCall]
      exact Nat.one_pos
    have ended := (readAll_yields cipher calls reader positive).2.2
      (by rw [List.length_replicate]; exact Nat.lt_succ_self _)
    have whole := (effects_front cipher calls reader).2 (by rw [ended]; rfl)
    exact harmless calls positive effect (whole ▸ member)
  · intro harmless calls _ effect member
    exact harmless effect ((effects_front cipher calls reader).1.subset member)

/-! ### Frames -/

theorem length_nonce (noncePfx : Bytes) (counter : UInt64) (last : Bool) :
    (nonce noncePfx counter last).length = noncePfx.length + 8 := by
  unfold nonce
  rw [List.length_append, List.length_append, List.length_drop, putUint64_length]
  rfl

/-- One frame is harmless when what it announces is. -/
theorem harmless_next_iff (reader : EncReader) (sized : reader.noncePfx.length = noncePfxLen) :
    (∀ effect ∈ reader.nextEffects, effect.Harmless) ↔
      ∀ head tail, head.length = 4 → reader.src.bytes = head ++ tail →
        announced head ≤ sealedChunk := by
  have nonces : ∀ last, (nonce reader.noncePfx reader.counter last).length = 12 := by
    intro last
    rw [length_nonce, sized]
    rfl
  unfold EncReader.nextEffects
  cases headed : readFull 4 reader.src with
  | error shortage =>
    refine iff_of_true (fun _ member => absurd member List.not_mem_nil) ?_
    intro head tail length isSource
    have read : readFull 4 reader.src = .ok (head, ⟨tail, reader.src.ending⟩) :=
      (readFull_eq_ok_iff _ _ _ _).mpr ⟨by rw [← isSource], length⟩
    cases headed.symm.trans read
  | ok read =>
    obtain ⟨head, body⟩ := read
    obtain ⟨isSource, length⟩ := (readFull_eq_ok_iff _ _ _ _).mp headed
    simp only [List.forall_mem_cons]
    have decrypts : ∀ effect ∈ (match readFull (announced head) body with
        | .error _ => []
        | .ok _ => [Effect.decrypt
            (nonce reader.noncePfx reader.counter (marksLast head)).length]),
        effect.Harmless := by
      intro effect member
      split at member
      · cases member
      · rw [List.mem_singleton.mp member]
        exact nonces _
    refine ⟨fun harmless other tail otherLength isOther => ?_, fun small => ⟨?_, decrypts⟩⟩
    · rw [isSource] at isOther
      obtain ⟨rfl, _⟩ := List.append_inj isOther (length.trans otherLength.symm)
      exact harmless.1
    · exact small head body.bytes length (by rw [isSource])

/-- The frames of a stream: the first announces no more than a sealed chunk, and so do the frames
behind it when it opens and is not the last. -/
theorem smallFrames_iff (key noncePfx : Bytes) (counter : UInt64) (bytes : Bytes) :
    SmallFrames cipher key noncePfx counter bytes ↔
      (∀ head tail, head.length = 4 → bytes = head ++ tail → announced head ≤ sealedChunk) ∧
        ∀ head sealed rest, bytes = head ++ (sealed ++ rest) → head.length = 4 →
          sealed.length = announced head → marksLast head = false →
          (cipher.gcmOpen key (nonce noncePfx counter false) sealed).isSome →
          SmallFrames cipher key noncePfx (counter + 1) rest := by
  constructor
  · intro small
    refine ⟨fun head tail => small [] head tail trivial, ?_⟩
    rintro first sealed rest rfl length sealedLength going opened front head tail opens headLength
      rfl
    refine small ((first, sealed) :: front) head tail
      ⟨⟨length, sealedLength, going, opened⟩, opens⟩ headLength ?_
    simp only [List.map_cons, List.flatten_cons, List.append_assoc]
  · rintro ⟨first, later⟩ front head tail opens headLength rfl
    cases front with
    | nil => exact first head tail headLength rfl
    | cons frame front =>
      obtain ⟨⟨length, sealedLength, going, opened⟩, opens⟩ := opens
      refine later frame.1 frame.2 _ ?_ length sealedLength going opened front head tail opens
        headLength rfl
      simp only [List.map_cons, List.flatten_cons, List.append_assoc]

/-- A stream starts with one frame only. -/
theorem frame_unique {head sealed rest other otherSealed otherRest : Bytes}
    (same : head ++ (sealed ++ rest) = other ++ (otherSealed ++ otherRest))
    (length : head.length = 4) (otherLength : other.length = 4)
    (sealedLength : sealed.length = announced head)
    (otherSealedLength : otherSealed.length = announced other) :
    other = head ∧ otherSealed = sealed ∧ otherRest = rest := by
  obtain ⟨rfl, behind⟩ := List.append_inj same (length.trans otherLength.symm)
  obtain ⟨rfl, rfl⟩ := List.append_inj behind (sealedLength.trans otherSealedLength.symm)
  exact ⟨rfl, rfl, rfl⟩

/-- Reading up to the end is harmless when the frames are small. -/
theorem harmless_frames_iff (reader : EncReader) (going : reader.done = false)
    (sized : reader.noncePfx.length = noncePfxLen) :
    (∀ effect ∈ reader.effectsToEnd cipher, effect.Harmless) ↔
      SmallFrames cipher reader.key reader.noncePfx reader.counter reader.src.bytes := by
  induction reader using EncReader.yields.induct cipher with
  | case1 reader done => exact absurd (going.symm.trans done) Bool.false_ne_true
  | case2 reader isGoing err failed =>
    rw [effectsToEnd_of_error cipher reader err going failed, harmless_next_iff reader sized,
      smallFrames_iff]
    refine (and_iff_left ?_).symm
    intro head sealed rest isSource length sealedLength notLast opened
    obtain ⟨plain, isPlain⟩ := Option.isSome_iff_exists.mp opened
    have stepped : reader.next cipher = .ok { reader with
        src := ⟨rest, reader.src.ending⟩
        counter := reader.counter + 1
        plain := plain
        done := marksLast head } :=
      (next_eq_ok_iff cipher reader _).mpr
        ⟨head, sealed, rest, isSource, length, sealedLength, notLast ▸ isPlain, rfl⟩
    cases failed.symm.trans stepped
  | case3 reader isGoing later stepped inductionHypothesis =>
    obtain ⟨head, sealed, rest, isSource, length, sealedLength, opened, isLater⟩ :=
      (next_eq_ok_iff cipher reader later).mp stepped
    rw [effectsToEnd_of_next cipher reader later going stepped, List.forall_mem_append,
      harmless_next_iff reader sized, smallFrames_iff]
    refine and_congr_right fun _ => ?_
    have unique : ∀ other otherSealed otherRest,
        reader.src.bytes = other ++ (otherSealed ++ otherRest) → other.length = 4 →
        otherSealed.length = announced other →
          other = head ∧ otherSealed = sealed ∧ otherRest = rest :=
      fun _ _ _ isOther otherLength otherSealedLength =>
        frame_unique (isSource.symm.trans isOther) length otherLength sealedLength
          otherSealedLength
    cases marked : marksLast head with
    | true =>
      have done : later.done = true := by rw [isLater, marked]
      rw [effectsToEnd_of_done cipher later done]
      refine iff_of_true (fun _ member => absurd member List.not_mem_nil) ?_
      intro other otherSealed otherRest isOther otherLength otherSealedLength notLast
      obtain ⟨rfl, _, _⟩ := unique _ _ _ isOther otherLength otherSealedLength
      exact absurd (notLast.symm.trans marked) Bool.false_ne_true
    | false =>
      have goesOn : later.done = false := by rw [isLater, marked]
      have keeps : later.noncePfx = reader.noncePfx := by rw [isLater]
      rw [inductionHypothesis goesOn (keeps ▸ sized)]
      rw [marked] at opened
      constructor
      · intro small other otherSealed otherRest isOther otherLength otherSealedLength _ _
        obtain ⟨rfl, rfl, rfl⟩ := unique _ _ _ isOther otherLength otherSealedLength
        rw [isLater] at small
        exact small
      · intro small
        rw [isLater]
        exact small head sealed rest isSource length sealedLength marked
          (by rw [opened]; rfl)

/-! ### Streams -/

/-- Reading comes to an end, whatever the stream. -/
theorem reading_ends (reader : Reader) :
    ∃ limit, ∀ calls : List ReadCall, (∀ call ∈ calls, 0 < call.size) → limit ≤ calls.length →
      ∃ err, (reader.readAll cipher calls).2 = some err :=
  ⟨(reader.yields cipher).bytes.length + 1, fun calls positive enough =>
    ⟨_, (readAll_yields cipher calls reader positive).2.2 enough⟩⟩

theorem safeToOpen_of_tame (source : Source Err) (password : Bytes)
    (tame : Tame cipher source password) : SafeToOpen cipher source password where
  opens text panicked := by
    obtain ⟨err, failed⟩ | ⟨_, body, plain⟩ |
      ⟨isProtected, params, salt, noncePfx, frames, header⟩ :=
      newReader_cases cipher source password
    · cases failed.symm.trans panicked
    · cases plain.symm.trans panicked
    obtain ⟨rounds, threads, _⟩ := tame isProtected params salt noncePfx frames header
    rw [newReader_of_header cipher source password isProtected params salt noncePfx frames header,
      deriveKey_of_nonzero cipher password salt _ _ _ rounds threads] at panicked
    cases panicked
  ends reader _ := reading_ends cipher reader
  harmless reader opened := by
    rw [harmless_reads_iff]
    cases reader with
    | plain body => exact fun _ member => absurd member List.not_mem_nil
    | encrypted reader =>
      obtain ⟨err, failed⟩ | ⟨_, body, plain⟩ |
          ⟨isProtected, params, salt, noncePfx, frames, header⟩ :=
        newReader_cases cipher source password
      · cases failed.symm.trans opened
      · cases plain.symm.trans opened
      obtain ⟨rounds, threads, small⟩ := tame isProtected params salt noncePfx frames header
      rw [newReader_of_header cipher source password isProtected params salt noncePfx frames header,
        deriveKey_of_nonzero cipher password salt _ _ _ rounds threads] at opened
      cases opened
      exact (harmless_frames_iff cipher _ rfl header.noncePfxLength).mpr small

theorem tame_of_safeToOpen (source : Source Err) (password : Bytes)
    (safe : SafeToOpen cipher source password) : Tame cipher source password := by
  intro isProtected params salt noncePfx frames header
  have isOpening :=
    newReader_of_header cipher source password isProtected params salt noncePfx frames header
  have derives : kdfRounds params ≠ 0 ∧ kdfThreads params ≠ 0 := by
    by_contra zero
    obtain ⟨text, panics⟩ := deriveKey_panics cipher password salt _ (kdfMemory params) _ zero
    rw [panics] at isOpening
    exact safe.opens text isOpening
  rw [deriveKey_of_nonzero cipher password salt _ _ _ derives.1 derives.2] at isOpening
  have harmless := (harmless_reads_iff cipher _).mp (safe.harmless _ isOpening)
  exact ⟨derives.1, derives.2,
    (harmless_frames_iff cipher _ rfl header.noncePfxLength).mp harmless⟩

/-- A stream is safe to open with a password exactly when it is not an encrypted dump that the
password is for, or names rounds and threads for the key derivation and no frame, as far as frames
open, that is longer than a sealed chunk. -/
theorem dump_safe_iff (source : Source Err) (password : Bytes) :
    SafeToOpen cipher source password ↔ Tame cipher source password :=
  ⟨tame_of_safeToOpen cipher source password, safeToOpen_of_tame cipher source password⟩

end

/-- An encrypted dump of the sample salt, with rounds, threads and frames. -/
def craftedDump (rounds : UInt32) (threads : UInt8) (frames : Bytes) : Bytes :=
  magic ++ [formatVer, modeEncrypt] ++
    (putUint32 argonMemKiB ++ putUint32 rounds ++ [threads, 1] ++ ([7] ++ [9, 9, 9, 9] ++ frames))

/-- A dump whose header names no rounds makes the key derivation panic, and for a frame that
announces two gigabytes they are allocated before anything is read of it. -/
theorem crafted_dumps_unsafe :
    ¬ SafeToOpen sampleCipher ⟨craftedDump 0 4 [], none⟩ (str "secret") ∧
      ¬ SafeToOpen sampleCipher ⟨craftedDump 3 4 (putUint32 0x7fffffff), none⟩ (str "secret") := by
  constructor
  · intro safe
    exact (tame_of_safeToOpen _ _ _ safe (by decide)
      (putUint32 argonMemKiB ++ putUint32 0 ++ [4, 1]) [7] [9, 9, 9, 9] []
      ⟨rfl, rfl, rfl, rfl⟩).1 (by decide)
  · intro safe
    have small := (tame_of_safeToOpen _ _ _ safe (by decide)
      (putUint32 argonMemKiB ++ putUint32 3 ++ [4, 1]) [7] [9, 9, 9, 9] (putUint32 0x7fffffff)
      ⟨rfl, rfl, rfl, rfl⟩).2.2
    exact absurd (small [] (putUint32 0x7fffffff) [] trivial rfl rfl) (by decide)

end Backup

end ConsensusDB
