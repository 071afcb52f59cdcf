import WormDB.Mmr

/-! # Inclusion proofs as bytes

Decoding the bytes of a proof gives the proof back (`decode_encode`), for every
proof the encoder accepts. -/
namespace WormDB
open List ByteCodec ByteReader

variable {ε : Type}

theorem readHash_append (err : ε) (h : Hash) (rest : Bytes) :
    readHash err (h.bytes ++ rest) = .ok (h, rest) := by
  have hs := splitBytes_append rest h.size_eq
  unfold readHash
  split <;> rename_i heq
  · cases hs.symm.trans heq
  · cases hs.symm.trans heq
    rfl

variable {bytes rest : Bytes} {h : Hash} {err : ε}

theorem readHash_ok (hread : readHash err bytes = .ok (h, rest)) : bytes = h.bytes ++ rest := by
  unfold readHash at hread
  split at hread <;> rename_i heq
  · cases hread
  · cases hread
    exact (splitBytes_eq_some.mp heq).1

theorem readHash_suffix (hread : readHash err bytes = .ok (h, rest)) : rest <:+ bytes := by
  rw [readHash_ok hread]
  exact suffix_append h.bytes rest

namespace Mmr

theorem readHash_errors {p : ε → Prop} (h : p err) (bytes : Bytes) :
    ErrorsIn p (readHash err bytes) := by
  rw [readHash]
  split
  · exact .error h
  · exact .ok _

theorem readPathItem_append (item : PathItem) (rest : Bytes) :
    readPathItem (encodePathItem item ++ rest) = .ok (item, rest) := by
  obtain ⟨side, hash⟩ := item
  rw [encodePathItem, cons_append, readPathItem, readUInt, readByte_cons, ok_bind]
  cases side <;> simp [proofSideLeft, proofSideRight, ok_bind, readHash_append, pure, Except.pure]

theorem readPeak_append (peak : Peak) (rest : Bytes) :
    readPeak (encodePeak peak ++ rest) = .ok (peak, rest) := by
  obtain ⟨height, hash⟩ := peak
  rw [encodePeak, cons_append, readPeak, readUInt, readByte_cons, ok_bind]
  simp [ok_bind, readHash_append, pure, Except.pure]

theorem encodePathItem_length (item : PathItem) : (encodePathItem item).length = proofPathItemLen := by
  rw [encodePathItem, length_cons, item.hash.size_eq]
  rfl

theorem encodePeak_length (peak : Peak) : (encodePeak peak).length = proofPeakItemLen := by
  rw [encodePeak, length_cons, peak.hash.size_eq]
  rfl

variable {α : Type} {k : Nat} {f : α → Bytes}

theorem flatMap_length_const (h : ∀ x, (f x).length = k)
    (xs : List α) : (xs.flatMap f).length = xs.length * k := by
  induction xs with
  | nil => simp
  | cons x xs ih =>
    rw [flatMap_cons, length_append, h, ih, length_cons, Nat.succ_mul, add_comm]

theorem ensureRemainingItems_append
    (h : ∀ x, (f x).length = k) (xs : List α) {m : Nat} (hm : m ≤ rest.length) :
    ensureRemainingItems (xs.flatMap f ++ rest) xs.length k m = .ok () := by
  rw [ensureRemainingItems, if_neg]
  rw [length_append, flatMap_length_const h]
  omega

/-- **Decoding undoes encoding.** -/
theorem decode_encode {proof : InclusionProof}
    (h : encodeInclusionProof proof = .ok bytes) : decodeInclusionProof bytes = .ok proof := by
  unfold encodeInclusionProof at h
  split at h
  · cases h
  split at h
  · cases h
  split at h
  · cases h
  rename_i hindex hpath hpeaks
  cases h
  have hindexlt : proof.peakIndex < 256 ^ 4 := by omega
  have hpathlt : proof.path.length < 256 ^ 4 := by rw [proofMaxPathItems] at hpath; omega
  have hpeakslt : proof.peaks.length < 256 ^ 4 := by rw [proofMaxPeaks] at hpeaks; omega
  have hpeaksread := readItems_append readPeak_append proof.peaks []
  have hpeaksroom := ensureRemainingItems_append encodePeak_length proof.peaks
    (Nat.zero_le ([] : Bytes).length)
  rw [append_nil] at hpeaksread hpeaksroom
  have htail : 4 ≤ (beBytes 4 proof.peaks.length ++ proof.peaks.flatMap encodePeak).length := by
    rw [length_append, beBytes_length]
    omega
  have hpathroom := ensureRemainingItems_append encodePathItem_length proof.path htail
  simp only [append_assoc, decodeInclusionProof, readBytes, readUInt]
  rw [readBytes_append _ rfl, ok_bind]
  simp only [ne_eq, not_true_eq_false, if_false]
  rw [readUInt_append _ (by decide), ok_bind]
  simp only [not_true_eq_false, if_false]
  rw [readUInt_append _ proof.leafIndex.toNat_lt, ok_bind]
  simp only []
  rw [readUInt_append _ proof.leafCount.toNat_lt, ok_bind]
  simp only []
  rw [readUInt_append _ hindexlt, ok_bind]
  simp only []
  rw [readUInt_append _ hpathlt, ok_bind]
  simp only [if_neg hpath]
  rw [hpathroom, ok_bind, readItems_append readPathItem_append, ok_bind]
  simp only []
  rw [readUInt_append _ hpeakslt, ok_bind]
  simp only [if_neg hpeaks]
  rw [hpeaksroom, ok_bind, hpeaksread, ok_bind]
  simp [pure, Except.pure]

end Mmr
end WormDB
