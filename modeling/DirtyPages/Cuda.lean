import DirtyPages.Basic
import DirtyPages.Hashalg
import DirtyPages.Lib.Outcome
import DirtyPages.Lib.Scatter
import Mathlib.Algebra.Order.Ring.Int
import Mathlib.Data.UInt

/-!
# Hashing a batch of blocks on the device

`hashalg.cu`: every thread of a launch computes its index from the built-in variables and, if it is
below the number of blocks, hashes the block with this index.  The input is one allocation, and a
load outside it is a fault; the output is addressed by its index and records the stores.  Threads
only share the output, so a launch is a list of its threads in the order of their stores.
-/

namespace DirtyPages

open Outcome

/-- The input on the device, `size` bytes from `base` on. -/
structure DeviceInput where
  mem : Memory
  base : ℕ
  size : ℕ
  fits : base + size ≤ 2 ^ 64

/-- The built-in variables `blockIdx.x` and `threadIdx.x` of a thread. -/
structure CudaThread where
  blockIdx : UInt32
  threadIdx : UInt32
  deriving DecidableEq, Repr

/-- The output: the words from `d_out` on, and which thread has stored where. -/
abbrev DeviceOutput := Scatter.Target CudaThread ℤ UInt64

namespace Cuda

/-- `FH_K1` -/
def fhK1 : UInt64 := 0x9E3779B97F4A7C15

/-- `FH_K2` -/
def fhK2 : UInt64 := 0xBF58476D1CE4E5B9

/-- `FH_K3` -/
def fhK3 : UInt64 := 0x94D049BB133111EB

/-- `fh_load64`: one load of eight bytes of the input. -/
def fhLoad64 (input : DeviceInput) (p : ℕ) : Except Fault UInt64 :=
  if input.base ≤ p ∧ p + 8 ≤ input.base + input.size then
    .ok ((List.range 8).foldr (fun i (v : UInt64) => (v <<< 8) ||| (input.mem (p + i)).toUInt64) 0)
  else
    .error .outOfBounds

/-- `fh_mix` -/
def fhMix (h : UInt64) : UInt64 :=
  let h := h ^^^ (h >>> 33)
  let h := h * fhK2
  let h := h ^^^ (h >>> 29)
  let h := h * fhK3
  h ^^^ (h >>> 32)

/-- `fast_hash_device`.  The loop index runs through `0, 4, …` below `len / 8`. -/
def fastHashDevice (input : DeviceInput) (p len : ℕ) : Except Fault UInt64 := do
  let words := len / 8
  let lanes ← (List.range' 0 ((words + 3) / 4) 4).foldlM
    (fun (lanes : Lanes) i => do
      let w0 ← fhLoad64 input (p + (i + 0) * 8)
      let h0 := (lanes.h0 ^^^ w0) * fhK1
      let w1 ← fhLoad64 input (p + (i + 1) * 8)
      let h1 := (lanes.h1 ^^^ w1) * fhK2
      let w2 ← fhLoad64 input (p + (i + 2) * 8)
      let h2 := (lanes.h2 ^^^ w2) * fhK3
      let w3 ← fhLoad64 input (p + (i + 3) * 8)
      let h3 := (lanes.h3 ^^^ w3) * fhK1
      return ⟨h0, h1, h2, h3⟩)
    ⟨fhK1, fhK2, fhK3, fhK1 ^^^ fhK2⟩
  let h := lanes.h0
  let h := (h * fhK1) ^^^ lanes.h1
  let h := (h * fhK2) ^^^ lanes.h2
  let h := (h * fhK3) ^^^ lanes.h3
  return fhMix (h ^^^ UInt64.ofNat len)

/-- `int idx = blockDim.x * blockIdx.x + threadIdx.x`: the 32 bits of the sum, read as an `int`. -/
def threadIndex (blockDim : UInt32) (t : CudaThread) : ℤ :=
  (blockDim * t.blockIdx + t.threadIdx).toBitVec.toInt

/-- `fast_hash_kernel`.  In the product `idx * block_len` the index becomes a `size_t`. -/
def fastHashKernel (input : DeviceInput) (blockDim : UInt32) (blockLen : UInt64) (numBlocks : Int32)
    (out : DeviceOutput) (t : CudaThread) : Except Fault DeviceOutput :=
  let idx := threadIndex blockDim t
  if idx < numBlocks.toInt then do
    let myBlock := input.base + (UInt64.ofInt idx * blockLen).toNat
    let h ← fastHashDevice input myBlock blockLen.toNat
    return out.store t idx h
  else
    return out

/-- The threads of a launch of `gridDim` blocks of `blockDim` threads. -/
def launchThreads (gridDim blockDim : UInt32) : List CudaThread :=
  (List.range gridDim.toNat).flatMap fun b =>
    (List.range blockDim.toNat).map fun t => ⟨UInt32.ofNat b, UInt32.ofNat t⟩

/-- The threads of a launch, one after the other. -/
def runThreads (input : DeviceInput) (blockDim : UInt32) (blockLen : UInt64) (numBlocks : Int32)
    (order : List CudaThread) (out : DeviceOutput) : Except Fault DeviceOutput :=
  order.foldlM (fastHashKernel input blockDim blockLen numBlocks) out

end Cuda

/-! ### One block -/

section Block

variable {input : DeviceInput} {p len : ℕ}

theorem cuda_fhLoad64 (hlow : input.base ≤ p) (hhigh : p + 8 ≤ input.base + input.size) :
    Cuda.fhLoad64 input p = .ok (Hashalg.fhLoad64 input.mem p) := by
  rw [Cuda.fhLoad64, if_pos ⟨hlow, hhigh⟩, Hashalg.fhLoad64]

/-- On a block of the input the device computes the reference hash, with all loads inside. -/
theorem fastHashDevice_eq (hlow : input.base ≤ p) (hhigh : p + len ≤ input.base + input.size)
    (hlen : 32 ∣ len) :
    Cuda.fastHashDevice input p len = .ok (Hashalg.fastHash input.mem p len) := by
  have hload : ∀ i ∈ List.range' 0 ((len / 8 + 3) / 4) 4, ∀ d < 4,
      Cuda.fhLoad64 input (p + (i + d) * 8) =
        .ok (Hashalg.fhLoad64 input.mem (p + (i + d) * 8)) := by
    intro i hi d hd
    obtain ⟨j, hj, rfl⟩ := List.mem_range'.mp hi
    exact cuda_fhLoad64 (by omega) (by omega)
  rw [Cuda.fastHashDevice, foldlM_eq_ok (f := fun (lanes : Lanes) i => {
      h0 := (lanes.h0 ^^^ Hashalg.fhLoad64 input.mem (p + (i + 0) * 8)) * Hashalg.fhK1
      h1 := (lanes.h1 ^^^ Hashalg.fhLoad64 input.mem (p + (i + 1) * 8)) * Hashalg.fhK2
      h2 := (lanes.h2 ^^^ Hashalg.fhLoad64 input.mem (p + (i + 2) * 8)) * Hashalg.fhK3
      h3 := (lanes.h3 ^^^ Hashalg.fhLoad64 input.mem (p + (i + 3) * 8)) * Hashalg.fhK1 })]
  · rfl
  · intro i hi lanes
    rw [hload i hi 0 (by decide), hload i hi 1 (by decide), hload i hi 2 (by decide),
      hload i hi 3 (by decide)]
    rfl

end Block

/-! ### The indices of a launch -/

section Launch

variable {gridDim blockDim : UInt32}

/-- The index of a thread does not wrap and is not negative. -/
theorem threadIndex_eq {b t : ℕ} (hb : b < gridDim.toNat) (ht : t < blockDim.toNat)
    (hmax : gridDim.toNat * blockDim.toNat ≤ 2 ^ 31) :
    Cuda.threadIndex blockDim ⟨UInt32.ofNat b, UInt32.ofNat t⟩ =
      ((b * blockDim.toNat + t : ℕ) : ℤ) := by
  have hgrid := gridDim.toNat_lt
  have hblock := blockDim.toNat_lt
  have hlt : b * blockDim.toNat + t < 2 ^ 31 := by
    calc b * blockDim.toNat + t
        < b * blockDim.toNat + blockDim.toNat := by omega
      _ = (b + 1) * blockDim.toNat := by rw [Nat.add_mul, Nat.one_mul]
      _ ≤ gridDim.toNat * blockDim.toNat := Nat.mul_le_mul_right _ hb
      _ ≤ 2 ^ 31 := hmax
  have hword : (blockDim * UInt32.ofNat b + UInt32.ofNat t).toBitVec.toNat =
      b * blockDim.toNat + t := by
    show (blockDim * UInt32.ofNat b + UInt32.ofNat t).toNat = _
    have hb' : b < UInt32.size := lt_trans hb hgrid
    have ht' : t < UInt32.size := lt_trans ht hblock
    rw [UInt32.toNat_add, UInt32.toNat_mul, UInt32.toNat_ofNat_of_lt' hb',
      UInt32.toNat_ofNat_of_lt' ht', Nat.mul_comm, Nat.mod_eq_of_lt (a := b * _) (by omega)]
    exact Nat.mod_eq_of_lt (by omega)
  show (blockDim * UInt32.ofNat b + UInt32.ofNat t).toBitVec.toInt = _
  rw [BitVec.toInt_eq_toNat_of_lt (by omega), hword]

/-- The threads of a launch have the indices from 0 on, each once. -/
theorem map_threadIndex (hmax : gridDim.toNat * blockDim.toNat ≤ 2 ^ 31) :
    (Cuda.launchThreads gridDim blockDim).map (Cuda.threadIndex blockDim) =
      (List.range (gridDim.toNat * blockDim.toNat)).map fun i : ℕ => (i : ℤ) := by
  have hrows : ∀ n ≤ gridDim.toNat,
      ((List.range n).flatMap fun b => (List.range blockDim.toNat).map fun t =>
          (⟨UInt32.ofNat b, UInt32.ofNat t⟩ : CudaThread)).map (Cuda.threadIndex blockDim) =
        (List.range (n * blockDim.toNat)).map fun i : ℕ => (i : ℤ) := by
    intro n hn
    induction n with
    | zero =>
      rw [Nat.zero_mul]
      rfl
    | succ n ih =>
      rw [List.range_succ, List.flatMap_append, List.map_append, ih (by omega), Nat.add_mul,
        Nat.one_mul, List.range_add, List.map_append, List.flatMap_singleton, List.map_map,
        List.map_map]
      congr 1
      refine List.map_congr_left fun t ht => ?_
      exact threadIndex_eq (by omega) (List.mem_range.mp ht) hmax
  exact hrows _ (Nat.le_refl _)

/-- Where a thread stores. -/
def threadPlace (blockDim : UInt32) (numBlocks : Int32) (t : CudaThread) : Option ℤ :=
  if Cuda.threadIndex blockDim t < numBlocks.toInt then some (Cuda.threadIndex blockDim t) else none

/-- The places of any list of threads are their indices below the number of blocks. -/
theorem filterMap_threadPlace (numBlocks : Int32) (order : List CudaThread) :
    order.filterMap (threadPlace blockDim numBlocks) =
      (order.map (Cuda.threadIndex blockDim)).filter fun i => i < numBlocks.toInt := by
  induction order with
  | nil => rfl
  | cons t order ih =>
    rw [List.map_cons, List.filterMap_cons, List.filter_cons, ih, threadPlace]
    by_cases h : Cuda.threadIndex blockDim t < numBlocks.toInt
    · simp [h]
    · simp [h]

variable {numBlocks : Int32} {order : List CudaThread}

/-- In whatever order the threads run, the places they store to are the numbers of the blocks, each
once. -/
theorem places_of_launch (horder : order.Perm (Cuda.launchThreads gridDim blockDim))
    (hmax : gridDim.toNat * blockDim.toNat ≤ 2 ^ 31)
    (hcover : numBlocks.toInt ≤ (gridDim.toNat * blockDim.toNat : ℕ)) :
    (order.filterMap (threadPlace blockDim numBlocks)).Nodup ∧
      ∀ j, j ∈ order.filterMap (threadPlace blockDim numBlocks) ↔
        0 ≤ j ∧ j < numBlocks.toInt := by
  have hperm := horder.map (Cuda.threadIndex blockDim)
  rw [map_threadIndex hmax] at hperm
  rw [filterMap_threadPlace]
  constructor
  · refine List.Nodup.filter _ (hperm.nodup_iff.mpr ?_)
    exact List.nodup_range.map fun i j h => Int.ofNat_inj.mp h
  · intro j
    rw [List.mem_filter, hperm.mem_iff, List.mem_map]
    constructor
    · rintro ⟨⟨i, _, rfl⟩, hlt⟩
      exact ⟨Int.natCast_nonneg i, of_decide_eq_true hlt⟩
    · rintro ⟨hnonneg, hlt⟩
      obtain ⟨i, rfl⟩ := Int.eq_ofNat_of_zero_le hnonneg
      exact ⟨⟨i, List.mem_range.mpr (by omega), rfl⟩, decide_eq_true hlt⟩

end Launch

/-! ### A whole launch -/

section Batch

variable {input : DeviceInput} {gridDim blockDim : UInt32} {blockLen : UInt64} {numBlocks : Int32}
  {order : List CudaThread}

/-- The hash of the block with number `j`. -/
def blockHash (input : DeviceInput) (blockLen : UInt64) (j : ℤ) : UInt64 :=
  Hashalg.fastHash input.mem (input.base + j.toNat * blockLen.toNat) blockLen.toNat

/-- The offset of a block of the input does not wrap. -/
theorem toNat_blockOffset {j : ℤ} (hj : 0 ≤ j) (hlt : j < numBlocks.toInt)
    (hsize : input.size = numBlocks.toInt.toNat * blockLen.toNat) (hpos : 0 < blockLen.toNat) :
    (UInt64.ofInt j * blockLen).toNat = j.toNat * blockLen.toNat ∧
      j.toNat * blockLen.toNat + blockLen.toNat ≤ input.size := by
  obtain ⟨i, rfl⟩ := Int.eq_ofNat_of_zero_le hj
  have hi : i + 1 ≤ numBlocks.toInt.toNat := by omega
  have hend : i * blockLen.toNat + blockLen.toNat ≤ input.size := by
    rw [hsize, ← Nat.succ_mul]
    exact Nat.mul_le_mul_right _ hi
  have hfits := input.fits
  refine ⟨?_, hend⟩
  have hi64 : i < 2 ^ 64 := by
    have hle : i ≤ i * blockLen.toNat := Nat.le_mul_of_pos_right i hpos
    omega
  have hword : (UInt64.ofInt (i : ℤ)).toNat = i := by
    have hmod : ((i : ℤ) % 2 ^ 64).toNat = i := by omega
    rw [UInt64.ofInt, hmod, UInt64.toNat_ofNat']
    exact Nat.mod_eq_of_lt hi64
  rw [UInt64.toNat_mul, hword]
  exact Nat.mod_eq_of_lt (by omega)

/-- A thread of the launch stores the hash of its block or nothing, and loads from it only. -/
theorem fastHashKernel_eq (t : CudaThread) (ht : 0 ≤ Cuda.threadIndex blockDim t)
    (hlen : 32 ∣ blockLen.toNat) (hpos : 0 < blockLen.toNat)
    (hsize : input.size = numBlocks.toInt.toNat * blockLen.toNat) (out : DeviceOutput) :
    Cuda.fastHashKernel input blockDim blockLen numBlocks out t =
      .ok (Scatter.runTask (threadPlace blockDim numBlocks) (blockHash input blockLen) out t) := by
  rw [Cuda.fastHashKernel, Scatter.runTask, threadPlace]
  by_cases hlt : Cuda.threadIndex blockDim t < numBlocks.toInt
  · obtain ⟨hoffset, hend⟩ := toNat_blockOffset ht hlt hsize hpos
    rw [if_pos hlt, if_pos hlt, hoffset]
    show Cuda.fastHashDevice _ _ _ >>= _ = _
    rw [fastHashDevice_eq (by omega) (by omega) hlen]
    rfl
  · rw [if_neg hlt, if_neg hlt]
    rfl

/-- For every number of blocks, 0 included, every block length that is a positive multiple of 32,
every input of that many bytes and every launch of at least so many and at most `2 ^ 31` threads:
whatever the order of the threads, all loads stay inside the input, each of the first words of the
output is stored once and holds the reference hash of its block, and no other word is stored or
changed. -/
theorem fastHashKernel_batch (input : DeviceInput) (gridDim blockDim : UInt32) (blockLen : UInt64)
    (numBlocks : Int32) (order : List CudaThread) (dOut : ℤ → UInt64)
    (hlen : 32 ∣ blockLen.toNat) (hpos : 0 < blockLen.toNat)
    (hsize : input.size = numBlocks.toInt.toNat * blockLen.toNat)
    (hcover : numBlocks.toInt ≤ (gridDim.toNat * blockDim.toNat : ℕ))
    (hmax : gridDim.toNat * blockDim.toNat ≤ 2 ^ 31)
    (horder : order.Perm (Cuda.launchThreads gridDim blockDim)) :
    ∃ out, Cuda.runThreads input blockDim blockLen numBlocks order ⟨dOut, []⟩ = .ok out ∧
      (∀ j : ℕ, (j : ℤ) < numBlocks.toInt → out.words j =
        Hashalg.fastHash input.mem (input.base + j * blockLen.toNat) blockLen.toNat) ∧
      (∀ j : ℤ, ¬(0 ≤ j ∧ j < numBlocks.toInt) → out.words j = dOut j) ∧
      ∀ j : ℤ, (out.stores.map Prod.snd).count j =
        if 0 ≤ j ∧ j < numBlocks.toInt then 1 else 0 := by
  obtain ⟨hnodup, hplaces⟩ := places_of_launch horder hmax hcover
  have hindex : ∀ t ∈ order, 0 ≤ Cuda.threadIndex blockDim t := by
    intro t ht
    have hmem := List.mem_map_of_mem (f := Cuda.threadIndex blockDim) (horder.subset ht)
    rw [map_threadIndex hmax, List.mem_map] at hmem
    obtain ⟨i, _, hi⟩ := hmem
    rw [← hi]
    exact Int.natCast_nonneg i
  refine ⟨_, foldlM_eq_ok (f := Scatter.runTask (threadPlace blockDim numBlocks)
    (blockHash input blockLen)) order _ fun t ht out =>
      fastHashKernel_eq t (hindex t ht) hlen hpos hsize out, ?_, ?_, ?_⟩
  · intro j hj
    rw [Scatter.foldl_words, if_pos ((hplaces j).mpr ⟨Int.natCast_nonneg j, hj⟩)]
    rfl
  · intro j hj
    rw [Scatter.foldl_words, if_neg fun h => hj ((hplaces j).mp h)]
  · intro j
    rw [Scatter.foldl_places, List.map_nil, List.nil_append, List.Nodup.count hnodup]
    simp only [hplaces]

/-- Two blocks of 32 bytes, hashed by a launch of two blocks of two threads each, in reverse. -/
theorem fastHashKernel_batch_reverse :
    let input : DeviceInput := ⟨fun i => UInt8.ofNat i, 4096, 64, by decide⟩
    ∃ out, Cuda.runThreads input 2 32 2 (Cuda.launchThreads 2 2).reverse ⟨fun _ => 0, []⟩ =
        .ok out ∧
      (∀ j : ℕ, (j : ℤ) < (2 : Int32).toInt → out.words j =
        Hashalg.fastHash input.mem (input.base + j * 32) 32) ∧
      (∀ j : ℤ, ¬(0 ≤ j ∧ j < (2 : Int32).toInt) → out.words j = 0) ∧
      ∀ j : ℤ, (out.stores.map Prod.snd).count j =
        if 0 ≤ j ∧ j < (2 : Int32).toInt then 1 else 0 :=
  fastHashKernel_batch _ 2 2 32 2 _ (fun _ => 0) (by decide) (by decide) (by decide) (by decide)
    (by decide) (List.reverse_perm _)

end Batch

end DirtyPages
