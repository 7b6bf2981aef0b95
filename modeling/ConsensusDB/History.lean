/-
This file says what the digest of the chain commits to. Each digest is the
SHA-256 sum of the digest before it, the index and the term, at fixed widths,
and of the command behind them, so an input tells all four apart. Two logs that
end at one digest are therefore the same log, unless two different inputs among
those that were hashed have one sum, or one of them sums to the genesis digest.
-/

import ConsensusDB.Lib.Replay
import ConsensusDB.Reference

namespace ConsensusDB

open Wire

/-! ### The digest of a log -/

/-- Folds an entry into a digest, whatever its index. -/
def Entry.digestAfter (entry : Entry) (previous : Digest) : Digest :=
  nextDigest previous entry.index entry.term entry.data

/-- The digest of a log is the fold of its entries. -/
theorem headOf_digest (entries : List Entry) (log : IsLog entries) :
    (headOf entries).digest = Replay.run Entry.digestAfter entries genesisDigest := by
  induction entries using List.reverseRecOn with
  | nil => rfl
  | append_singleton front last inductionHypothesis =>
    have below := headOf_index_lt log List.mem_cons_self
    rw [headOf_append, foldAll_cons, foldAll_nil, fold_of_lt below, Replay.run_snoc,
      ← inductionHypothesis log.append_left]
    rfl

/-- The input of an entry is hashed when the log is folded. -/
theorem digestInput_mem_hashedBy (entries front : List Entry) (entry : Entry) (log : IsLog entries)
    (isFront : front ++ [entry] <+: entries) :
    digestInput (headOf front).digest entry.index entry.term entry.data ∈
      hashedBy .genesis entries := by
  obtain ⟨back, rfl⟩ := isFront
  have below := headOf_index_lt log.append_left List.mem_cons_self
  have fresh : ¬ entry.index ≤ (HashChain.genesis.foldAll front).index :=
    UInt64.not_le.mpr below
  rw [List.append_assoc, hashedBy_append, List.singleton_append, hashedBy, if_neg fresh]
  exact List.mem_append_right _ List.mem_cons_self

/-- Two logs with one digest are the same log, entry by entry, when SHA-256 tells the inputs apart
that were hashed and yields the genesis digest on none of them. -/
theorem digest_determines_history (first second : List Entry) (firstLog : IsLog first)
    (secondLog : IsLog second)
    (free : CollisionFree (hashedBy .genesis first ++ hashedBy .genesis second))
    (leaves : ∀ input ∈ hashedBy .genesis first ++ hashedBy .genesis second,
      Sha256.sum input ≠ genesisDigest.bytes)
    (equal : (headOf first).digest = (headOf second).digest) : first = second := by
  have prefixDigest (entries : List Entry) (log : IsLog entries) (front : List Entry)
      (entry : Entry) (isFront : front ++ [entry] <+: entries) :
      Replay.run Entry.digestAfter front genesisDigest = (headOf front).digest := by
    obtain ⟨back, rfl⟩ := isFront
    exact (headOf_digest front log.append_left.append_left).symm
  rw [headOf_digest first firstLog, headOf_digest second secondLog] at equal
  refine Replay.eq_of_run_eq Entry.digestAfter genesisDigest first second ?_ ?_ ?_ equal
  · intro front entry isFront otherFront other isOther same
    have inFirst := digestInput_mem_hashedBy first front entry firstLog isFront
    have inSecond := digestInput_mem_hashedBy second otherFront other secondLog isOther
    rw [prefixDigest first firstLog front entry isFront,
      prefixDigest second secondLog otherFront other isOther] at same ⊢
    obtain ⟨digests, indices, terms, commands⟩ := digestInput_inj
      (free _ (List.mem_append_left _ inFirst) _ (List.mem_append_right _ inSecond)
        (congrArg Digest.bytes same))
    obtain ⟨index, term, data⟩ := entry
    obtain ⟨otherIndex, otherTerm, otherData⟩ := other
    subst indices terms commands
    exact ⟨digests, rfl⟩
  · intro front entry isFront back
    have hashed := digestInput_mem_hashedBy first front entry firstLog isFront
    rw [prefixDigest first firstLog front entry isFront] at back
    exact leaves _ (List.mem_append_left _ hashed) (congrArg Digest.bytes back)
  · intro front entry isFront back
    have hashed := digestInput_mem_hashedBy second front entry secondLog isFront
    rw [prefixDigest second secondLog front entry isFront] at back
    exact leaves _ (List.mem_append_right _ hashed) (congrArg Digest.bytes back)

/-- The one input that is hashed for the log of one entry does not sum to the genesis digest. -/
theorem digest_determines_history_sample :
    (∀ input ∈ hashedBy .genesis Reference.sampleLog ++ hashedBy .genesis Reference.sampleLog,
      Sha256.sum input ≠ genesisDigest.bytes) ∧
    Reference.sampleLog = [⟨1, 1, (encodeCommand Reference.deps
      (Reference.samplePut.command Reference.deps 100)).toOption.getD []⟩] := by
  have leaves : ∀ input ∈ hashedBy .genesis Reference.sampleLog ++
      hashedBy .genesis Reference.sampleLog, Sha256.sum input ≠ genesisDigest.bytes := by
    decide +kernel
  have free : CollisionFree (hashedBy .genesis Reference.sampleLog ++
      hashedBy .genesis Reference.sampleLog) := by
    intro first firstMember second secondMember _
    have single : ∀ input ∈ hashedBy .genesis Reference.sampleLog ++
        hashedBy .genesis Reference.sampleLog, input = digestInput genesisDigest 1 1
          (Reference.entryOf 1 (Reference.samplePut.command Reference.deps 100)).data := by
      decide +kernel
    rw [single first firstMember, single second secondMember]
  exact ⟨leaves, digest_determines_history _ _ Reference.sampleLog_committed.toIsLog
    Reference.sampleLog_committed.toIsLog free leaves rfl⟩

end ConsensusDB
