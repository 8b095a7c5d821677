import GrinPool.Proto
import Mathlib.Data.List.Sort

/-!
# Rebuilding a block header from a share

`block_header` (lines 95-106) rebuilds the header a share claims to solve: the job version's pre-pow
bytes, the serialised nonce and the serialised proof, read back as a `BlockHeader`. Hex decoding,
serialisation, deserialisation and `verify_size` are grin_util's and grin_core's, and the unscaled
difficulty of a proof is computed in the pool's `consensus.rs`; none of them is among the sources, so
`PowLib` takes them as parameters and every theorem holds for all of them.

The one library behaviour fixed here is grin_core's `Proof::new`, which sorts the nonces: the proof
serialised into the header is the share's edge bits cast to `u8` with its nonces sorted (`headerProof`,
`blockHeader_eq`), and the cast forgets multiples of 256 (`toUInt8_add_256`).
-/

namespace GrinPool

/-- `grin_core::pow::Proof`. -/
structure Proof where
  edgeBits : UInt8
  nonces : List UInt64
deriving DecidableEq, Repr

/-- `pool::consensus::Proof`, whose difficulty gates a share (lines 368-372). -/
structure MinerProof where
  edgeBits : UInt8
  nonces : List UInt64
deriving DecidableEq, Repr

/-- The library calls `block_header` and `process_shares` make, over a header type `Header`. -/
structure PowLib (Header : Type) where
  /-- `grin_util::from_hex`. -/
  fromHex : String → Except String (List UInt8)
  /-- `ser_vec` of the nonce. -/
  serNonce : UInt64 → Except String (List UInt8)
  /-- `ser_vec` of a `Proof`. -/
  serProof : Proof → Except String (List UInt8)
  /-- `deserialize` of a `BlockHeader`. -/
  deserialize : List UInt8 → Except String Header
  /-- `grin_core::pow::verify_size(&header).is_ok()`. -/
  verifySize : Header → Bool
  /-- `proof.to_difficulty_unscaled().to_num()`. -/
  toDifficultyUnscaled : MinerProof → UInt64
  /-- `global::min_edge_bits()`, the edge bits `Proof::new` starts from. -/
  minEdgeBits : UInt8

/-- A library in which every header verifies and every proof has difficulty 10. Counterexamples need
shares that pass `verify_size`, and they run against this one. -/
def PowLib.lenient : PowLib (List UInt8) where
  fromHex s := .ok (s.toList.map fun c => c.toNat.toUInt8)
  serNonce n := .ok [n.toUInt8]
  serProof p := .ok (p.edgeBits :: p.nonces.map UInt64.toUInt8)
  deserialize b := .ok b
  verifySize _ := true
  toDifficultyUnscaled _ := 10
  minEdgeBits := 29

/-- `Proof::new`: the nonces in ascending order, at the default edge bits. -/
def Proof.new (edgeBits : UInt8) (nonces : List UInt64) : Proof :=
  ⟨edgeBits, nonces.insertionSort (· ≤ ·)⟩

variable {Header : Type}

/-- `block_header(pre_pow, edge_bits, nonce, proof)`. -/
def blockHeader (lib : PowLib Header) (prePow : String) (edgeBits : UInt8) (nonce : UInt64)
    (proof : List UInt64) : Except String Header := do
  let headerBytes ← lib.fromHex prePow
  let nonceBytes ← lib.serNonce nonce
  let proof := { Proof.new lib.minEdgeBits proof with edgeBits := edgeBits }
  let proofBytes ← lib.serProof proof
  lib.deserialize (headerBytes ++ nonceBytes ++ proofBytes)

/-! ### What the header depends on -/

/-- The proof `block_header` serialises into the header. -/
def headerProof (edgeBits : UInt8) (pow : List UInt64) : Proof :=
  ⟨edgeBits, pow.insertionSort (· ≤ ·)⟩

theorem blockHeader_eq (lib : PowLib Header) (prePow : String) (edgeBits : UInt8) (nonce : UInt64)
    (pow : List UInt64) :
    blockHeader lib prePow edgeBits nonce pow = (do
      let headerBytes ← lib.fromHex prePow
      let nonceBytes ← lib.serNonce nonce
      let proofBytes ← lib.serProof (headerProof edgeBits pow)
      lib.deserialize (headerBytes ++ nonceBytes ++ proofBytes)) := rfl

theorem blockHeader_eq_ok {lib : PowLib Header} {prePow : String} {edgeBits : UInt8} {nonce : UInt64}
    {pow : List UInt64} {bh : Header} :
    blockHeader lib prePow edgeBits nonce pow = .ok bh ↔
      ∃ headerBytes nonceBytes proofBytes, lib.fromHex prePow = .ok headerBytes ∧
        lib.serNonce nonce = .ok nonceBytes ∧ lib.serProof (headerProof edgeBits pow) = .ok proofBytes ∧
        lib.deserialize (headerBytes ++ nonceBytes ++ proofBytes) = .ok bh := by
  rw [blockHeader_eq]
  cases lib.fromHex prePow <;> cases lib.serNonce nonce <;> cases lib.serProof (headerProof edgeBits pow) <;>
    simp [bind, Except.bind]

/-- `as u8` forgets a multiple of 256 in the edge bits. -/
theorem toUInt8_add_256 (e : UInt32) : (e + 256).toUInt8 = e.toUInt8 := by
  apply UInt8.toNat.inj
  show (e.toBitVec + 256#32).toNat % 256 = e.toBitVec.toNat % 256
  simp only [BitVec.toNat_add, BitVec.toNat_ofNat]
  omega

end GrinPool
