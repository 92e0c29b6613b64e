import OperatingSystems.Fs.Allocate
import Mathlib.Data.List.GetD

/-!
# Writing to a file

`writeLoop_spec` follows the loop of `testfs_write_data`: after any number of turns the bytes of a
prefix of the buffer are in the file, all other bytes of all files are as before, and the
ownership invariant holds. `Extent` relates the slots of an inode to its size: nothing lies beyond
the last block, and the last block is allocated. While the loop runs, the size it is relative to
is the one the loop is going to store.

`FailsClean` describes, in the state before a write, the writes that fail without having
allocated anything: those leave the dirty flag as it was.
-/

set_option autoImplicit false
set_option relaxedAutoImplicit false

namespace OperatingSystems.Fs

open Library

/-! ### Writing one data block -/

section PutData

variable {s : FsState} {i : ℕ} {σ : Slot} (h : Core s) (hi : i < nrInodes) (hdata : σ.isData = true)
  (hσ : s.own i σ ≠ 0) (block : Block)

include h hi hσ

theorem dinode_putData {j : ℕ} (hj : j < nrInodes) :
    (s.putDev (s.own i σ).toNat block).dinode j = s.dinode j := by
  have hdisk : (s.putDev (s.own i σ).toNat block).diskDinode j = s.diskDinode j := by
    apply diskDinode_congr h.layout
    · rfl
    · intro b _ hhigh
      have hlow := (h.own_toNat hi hσ).2.1
      exact Device.blocks_put_of_ne _ _ (by omega)
    · exact hj
  rw [FsState.dinode, FsState.dinode, hdisk]
  rfl

include hdata

/-- A data block holds no block numbers. -/
theorem own_putData {j : ℕ} (hj : j < nrInodes) :
    (s.putDev (s.own i σ).toNat block).own j = s.own j := by
  apply own_congr
  · rw [dinode_putData h hi hσ block hj]
  · intro τ hτ hne
    apply Device.blocks_put_of_ne
    intro heq
    obtain ⟨-, rfl⟩ := h.own_inj hj hi hne heq hσ
    rw [hdata] at hτ
    exact Bool.false_ne_true hτ.symm

theorem core_putData : Core (s.putDev (s.own i σ).toNat block) := by
  apply h.congr (h.layout.putDev _ block)
  · exact fun j hj ↦ own_putData h hi hdata hσ block hj
  · exact fun j hj ↦ by rw [dinode_putData h hi hσ block hj]
  · exact fun _ _ ↦ rfl
  · rfl
  · rfl
  · intro idx _ hclear
    apply Device.blocks_put_of_ne
    intro heq
    have huse := h.inUse hi hσ
    rw [← (h.own_toNat hi hσ).1, ← heq] at huse
    exact not_inUse hclear huse
  · exact h.table

/-- The bytes of the written block, and all others. -/
theorem content_putData {j : ℕ} (hj : j < nrInodes) (off : ℕ) :
    (s.putDev (s.own i σ).toNat block).content j off =
      if j = i ∧ off < maxFileSize ∧ Slot.ofLog (off / blockSize) = σ then
        block.byte (off % blockSize) else s.content j off := by
  rw [FsState.content, FsState.content, own_putData h hi hdata hσ block hj]
  by_cases hhere : j = i ∧ off < maxFileSize ∧ Slot.ofLog (off / blockSize) = σ
  · obtain ⟨rfl, hoff, rfl⟩ := hhere
    rw [if_pos ⟨hoff, hσ⟩, if_pos ⟨rfl, hoff, rfl⟩]
    exact congrArg (fun b ↦ Block.byte b (off % blockSize)) (Device.blocks_put_self _ _ _)
  · rw [if_neg hhere]
    split_ifs with hhave
    · have hne : (s.own j (Slot.ofLog (off / blockSize))).toNat ≠ (s.own i σ).toNat := by
        intro heq
        obtain ⟨rfl, rfl⟩ := h.own_inj hj hi hhave.2 heq hσ
        exact hhere ⟨rfl, hhave.1, rfl⟩
      exact congrArg (fun b ↦ Block.byte b (off % blockSize)) (Device.blocks_put_of_ne _ _ hne)
    · rfl

theorem confined_putData : Confined i s (s.putDev (s.own i σ).toNat block) where
  own_ne := fun j hj _ ↦ own_putData h hi hdata hσ block hj
  own_keep := fun τ _ ↦ by rw [own_putData h hi hdata hσ block hi]
  content_ne := by
    intro j hj hne
    funext off
    rw [content_putData h hi hdata hσ block hj, if_neg fun hand ↦ hne hand.1]
  table_ne := fun _ _ ↦ rfl
  inodeBlocks := by
    intro b _ hhigh
    have hlow := (h.own_toNat hi hσ).2.1
    exact Device.blocks_put_of_ne _ _ (by omega)
  sb := rfl
  inodeFreemap := rfl
  allocFailed := id
  len := Device.len_le_put _ _ _

omit h hi hdata hσ in
/-- Writing the one block that may lie outside the device file brings it in. -/
theorem reached_putData (hr : ReachedBut s i σ) : Reached (s.putDev (s.own i σ).toNat block) := by
  intro idx hidx hset
  rcases hr idx hidx hset with hlen | hown
  · exact hlen.trans_le (Device.len_le_put _ _ _)
  · have hlen := s.dev.lt_len_put (s.own i σ).toNat block
    rw [← hown, Int.toNat_natCast] at hlen
    rw [← hown, Int.toNat_natCast]
    exact hlen

end PutData

/-! ### Sizes -/

/-- The slots of an inode lie before a size, whose last block is allocated. -/
structure Extent (own : Slot → ℤ) (size : ℤ) : Prop where
  nonneg : 0 ≤ size
  le_max : size ≤ maxFileSize
  within : ∀ σ, own σ ≠ 0 → ((σ.first * blockSize : ℕ) : ℤ) < size
  last : 0 < size → own (Slot.ofLog ((size.toNat - 1) / blockSize)) ≠ 0

/-- Filling a block up to `fin`. -/
theorem Extent.grow {own own' : Slot → ℤ} {size : ℤ} (h : Extent own size) {l fin : ℕ}
    (hl : l < maxBlockNr) (hkeep : ∀ σ, own σ ≠ 0 → own' σ ≠ 0)
    (hnew : ∀ σ, own σ = 0 → own' σ ≠ 0 → σ.first ≤ l) (hblock : own' (Slot.ofLog l) ≠ 0)
    (hlow : l * blockSize < fin) (hhigh : fin ≤ (l + 1) * blockSize) :
    Extent own' (max size fin) where
  nonneg := le_max_of_le_left h.nonneg
  le_max := by
    have hfin : fin ≤ maxFileSize := hhigh.trans (Nat.mul_le_mul_right _ hl)
    exact max_le h.le_max (by exact_mod_cast hfin)
  within := by
    intro σ hσ
    by_cases hold : own σ = 0
    · have hfirst : σ.first * blockSize ≤ l * blockSize :=
        Nat.mul_le_mul_right _ (hnew σ hold hσ)
      exact lt_max_of_lt_right (by exact_mod_cast hfirst.trans_lt hlow)
    · exact lt_max_of_lt_left (h.within σ hold)
  last := by
    intro hpos
    rcases le_total ((fin : ℕ) : ℤ) size with hle | hle
    · rw [max_eq_left hle] at hpos ⊢
      exact hkeep _ (h.last hpos)
    · have hdiv : (fin - 1) / blockSize = l := by
        simp only [blockSize] at *
        omega
      rw [max_eq_right hle, Int.toNat_natCast, hdiv]
      exact hblock

/-! ### What a write has done so far -/

/-- The bytes `data` were written to inode `i` from offset `off` on. -/
structure Wrote (i off : ℕ) (data : List UInt8) (s t : FsState) : Prop extends Confined i s t where
  core : Core t
  reached : Reached t
  content : ∀ o, t.content i o =
    if off ≤ o ∧ o < off + data.length then data.getD (o - off) 0 else s.content i o

theorem Wrote.refl {s : FsState} (h : Core s) (hr : Reached s) (i off : ℕ) : Wrote i off
    [] s s where
  toConfined := Confined.refl i s
  core := h
  reached := hr
  content := by
    intro o
    rw [if_neg]
    simp only [List.length_nil]
    omega

theorem Wrote.append {i off : ℕ} {first second : List UInt8} {s t u : FsState}
    (h₁ : Wrote i off first s t) (h₂ : Wrote i (off + first.length) second t u) :
    Wrote i off (first ++ second) s u where
  toConfined := h₁.toConfined.trans h₂.toConfined
  core := h₂.core
  reached := h₂.reached
  content := by
    intro o
    rw [h₂.content o, h₁.content o, List.length_append]
    by_cases hsecond : off + first.length ≤ o ∧ o < off + first.length + second.length
    · rw [if_pos hsecond, if_pos (by omega), List.getD_append_right _ _ _ _ (by omega)]
      congr 1
      omega
    · rw [if_neg hsecond]
      by_cases hfirst : off ≤ o ∧ o < off + first.length
      · rw [if_pos hfirst, if_pos (by omega), List.getD_append _ _ _ _ (by omega)]
      · rw [if_neg hfirst, if_neg (by omega)]

/-- The bytes of a logical block are those of the file. -/
theorem byte_blockOf (s : FsState) (i : ℕ) {o : ℕ} (ho : o < maxFileSize) :
    (s.blockOf i (o / blockSize)).byte (o % blockSize) = s.content i o := by
  rw [FsState.blockOf, FsState.content]
  by_cases hzero : s.own i (Slot.ofLog (o / blockSize)) = 0
  · rw [if_pos hzero, if_neg (fun hand ↦ hand.2 hzero), Block.byte_zero]
  · rw [if_neg hzero, if_pos ⟨ho, hzero⟩]

/-- One turn of the loop: the block is allocated if need be and its new bytes are written. -/
theorem Wrote.block {i l : ℕ} {s t : FsState} (hl : l < maxBlockNr) (hi : i < nrInodes)
    (h : Allocated i l s t (t.own i (Slot.ofLog l))) (ix : ℕ) (buf : List UInt8) :
    Wrote i (l * blockSize + ix) (buf.take (min (blockSize - ix) buf.length)) s
      (t.putDev (t.own i (Slot.ofLog l)).toNat ((s.blockOf i l).copyIn ix
        (min (blockSize - ix) buf.length) fun k ↦ buf.getD k 0)) := by
  have hdata := Slot.isData_ofLog l
  have hne : t.own i (Slot.ofLog l) ≠ 0 := h.pos.ne'
  have hcore := h.grown.core
  refine ⟨h.grown.toConfined.trans (confined_putData hcore hi hdata hne _),
    core_putData hcore hi hdata hne _, reached_putData _ h.reached, ?_⟩
  intro o
  rw [content_putData hcore hi hdata hne _ hi, h.grown.content i hi, List.length_take]
  by_cases hhere : o < maxFileSize ∧ Slot.ofLog (o / blockSize) = Slot.ofLog l
  · have hdiv : o / blockSize = l := by
      apply Slot.ofLog_injective _ hl hhere.2
      exact Nat.div_lt_of_lt_mul (by rw [mul_comm]; exact hhere.1)
    have hsplit := Nat.div_add_mod o blockSize
    have hmod := Nat.mod_lt o (by decide : 0 < blockSize)
    rw [if_pos ⟨rfl, hhere⟩, Block.byte_copyIn hmod, ← hdiv, byte_blockOf s i hhere.1]
    by_cases hwritten : ix ≤ o % blockSize ∧
        o % blockSize < ix + min (blockSize - ix) buf.length
    · rw [if_pos hwritten, if_pos (by simp only [blockSize] at *; omega)]
      have hindex : o - (o / blockSize * blockSize + ix) = o % blockSize - ix := by
        simp only [blockSize] at *
        omega
      rw [hindex, List.getD_eq_getElem?_getD, List.getD_eq_getElem?_getD, List.getElem?_take,
        if_pos (by omega)]
    · rw [if_neg hwritten, if_neg (by simp only [blockSize] at *; omega)]
  · rw [if_neg fun hand ↦ hhere hand.2, if_neg]
    intro hrange
    apply hhere
    have hdiv : o / blockSize = l := by
      simp only [blockSize] at *
      omega
    refine ⟨?_, by rw [hdiv]⟩
    simp only [maxFileSize, maxBlockNr, nrDirectBlocks, nrIndirectBlocks, blockSize] at *
    omega

/-! ### The loop -/

/-- Block `k` of inode `i` cannot be had: it is beyond the largest file, or missing in a full file
system. -/
def Stuck (s : FsState) (i k : ℕ) : Prop :=
  maxBlockNr ≤ k ∨ s.own i (Slot.ofLog k) = 0 ∧ s.Full

/-- A write from block `first` on finds all blocks before `k` and then gets stuck. -/
structure FailsClean (s : FsState) (i first k : ℕ) : Prop where
  le : first ≤ k
  found : ∀ l, first ≤ l → l < k → l < maxBlockNr ∧ s.own i (Slot.ofLog l) ≠ 0
  stuck : Stuck s i k

theorem FailsClean.of_stuck {s : FsState} {i k : ℕ} (h : Stuck s i k) : FailsClean s i k k :=
  ⟨le_rfl, fun _ hle hlt ↦ absurd hle (not_le.mpr hlt), h⟩

/-- There is only one block at which a write gets stuck before it allocates one. -/
theorem FailsClean.unique {s : FsState} {i first k k' : ℕ} (h : FailsClean s i first k)
    (h' : FailsClean s i first k') :
    k = k' := by
  have hlt : ∀ {a b}, FailsClean s i first a → FailsClean s i first b → ¬ a < b := by
    intro a b ha hb hab
    obtain ⟨hmax, hne⟩ := hb.found a ha.le hab
    rcases ha.stuck with hge | ⟨hzero, -⟩
    · exact absurd hmax (not_lt.mpr hge)
    · exact hne hzero
  exact le_antisymm (not_lt.mp (hlt h' h)) (not_lt.mp (hlt h h'))

/-- A missing block that could be allocated is where a clean failure ends. -/
theorem not_failsClean {s : FsState} {i l : ℕ} (hl : l < maxBlockNr)
    (hzero : s.own i (Slot.ofLog l) = 0) (hfull : ¬ s.Full) (k : ℕ) : ¬ FailsClean s i l k := by
  intro h
  rcases h.le.eq_or_lt with rfl | hlt
  · rcases h.stuck with hmax | hstuck
    · exact absurd hl (not_lt.mpr hmax)
    · exact hfull hstuck.2
  · exact (h.found l le_rfl hlt).2 hzero

/-- A block that exists is passed. -/
theorem failsClean_succ_iff {s t : FsState} {i l : ℕ} (hown : t.own i = s.own i)
    (hfull : t.Full ↔ s.Full) (hl : l < maxBlockNr) (hne : s.own i (Slot.ofLog l) ≠ 0) (k : ℕ) :
    FailsClean s i l k ↔ FailsClean t i (l + 1) k := by
  have hstuck : Stuck t i k ↔ Stuck s i k := by rw [Stuck, Stuck, hown, hfull]
  constructor
  · intro h
    have hlt : l ≠ k := by
      rintro rfl
      rcases h.stuck with hmax | hzero
      · exact absurd hl (not_lt.mpr hmax)
      · exact hne hzero.1
    refine ⟨Nat.lt_of_le_of_ne h.le hlt, ?_, hstuck.mpr h.stuck⟩
    intro m hle hlt
    rw [hown]
    exact h.found m (Nat.le_of_succ_le hle) hlt
  · intro h
    refine ⟨Nat.le_of_succ_le h.le, ?_, hstuck.mp h.stuck⟩
    intro m hle hlt
    rcases hle.eq_or_lt with rfl | hlt'
    · exact ⟨hl, hne⟩
    · rw [← hown]
      exact h.found m hlt' hlt

/-- The loop of `testfs_write_data`, from a block number, a place in the block and a buffer on,
has written `n` bytes and has found them all room, or has failed. -/
structure LoopResult (i off : ℕ) (buf : List UInt8) (size : ℤ) (inode : Inode) (s : FsState)
    (failure : Option ℤ) (n : ℕ) (t : FsState) (inode' : Inode) : Prop where
  le : n ≤ buf.length
  wrote : Wrote i off (buf.take n) s t
  inMemory : t.inodeHashTable i = some inode'
  extended : inode.Extends inode'
  extent : Extent (t.own i) (if n = 0 then size else max size (off + n : ℕ))
  complete : failure = none → n = buf.length
  room : failure = none → 0 < buf.length →
    ∀ k, k * blockSize < off + buf.length → ¬ FailsClean s i (off / blockSize) k
  short : ∀ ret, failure = some ret → n < buf.length ∧ (n = 0 ∨ blockSize ∣ off + n)
  error : ∀ ret, failure = some ret → ret = -eNOSPC ∧ t.allocFailed = true ∨
    ret = -eFBIG ∧ maxFileSize < off + buf.length
  clean : ∀ ret, failure = some ret →
    inode' = inode ∧ t.own i = s.own i ∧ FailsClean s i (off / blockSize) ((off + n) / blockSize) ∨
      inode'.dirty = true ∧ (∀ k, ¬ FailsClean s i (off / blockSize) k) ∧
        (n = 0 → nrDirectBlocks ≤ off / blockSize)
  flag : failure = none → t.allocFailed = s.allocFailed

namespace LoopResult

variable {i off : ℕ} {buf : List UInt8} {size : ℤ} {inode : Inode} {s : FsState}

theorem done (h : Core s) (hr : Reached s) (ht : s.inodeHashTable i = some inode)
    (hext : Extent (s.own i) size) : LoopResult i off [] size inode s none 0 s inode where
  le := le_rfl
  wrote := Wrote.refl h hr i off
  inMemory := ht
  extended := Inode.Extends.refl inode
  extent := by rw [if_pos rfl]; exact hext
  complete := fun _ ↦ rfl
  room := fun _ hpos ↦ absurd hpos (lt_irrefl 0)
  short := by simp
  error := by simp
  clean := by simp
  flag := fun _ ↦ rfl

/-- A first block that lies beyond the largest file. -/
theorem tooBig (h : Core s) (hr : Reached s) (ht : s.inodeHashTable i = some inode)
    (hext : Extent (s.own i) size) (hbuf : 0 < buf.length) (hl : maxBlockNr ≤ off / blockSize) :
    LoopResult i off buf size inode s (some (-eFBIG)) 0 s inode where
  le := Nat.zero_le _
  wrote := Wrote.refl h hr i off
  inMemory := ht
  extended := Inode.Extends.refl inode
  extent := by rw [if_pos rfl]; exact hext
  complete := by simp
  room := by simp
  short := fun _ _ ↦ ⟨hbuf, Or.inl rfl⟩
  error := by
    intro ret hret
    rw [Option.some.injEq] at hret
    refine Or.inr ⟨hret.symm, ?_⟩
    have hoff := (Nat.le_div_iff_mul_le (by decide)).mp hl
    exact lt_of_le_of_lt hoff (Nat.lt_add_of_pos_right hbuf)
  clean := fun _ _ ↦ Or.inl ⟨rfl, rfl, FailsClean.of_stuck (Or.inl hl)⟩
  flag := by simp

/-- A first block that could not be allocated. -/
theorem refused {t : FsState} (h : Core s) (hr : Reached s) (ht : s.inodeHashTable i = some inode)
    (hext : Extent (s.own i) size) (hbuf : 0 < buf.length) (hl : off / blockSize < maxBlockNr)
    (hzero : s.own i (Slot.ofLog (off / blockSize)) = 0) (hrefused : Refused i inode s t)
    (hdirect : off / blockSize < nrDirectBlocks → s.Full) :
    ∃ inode', LoopResult i off buf size inode s (some (-eNOSPC)) 0 t inode' := by
  obtain ⟨inode', hinode', hdin, hextended, hclean⟩ : ∃ inode', t.inodeHashTable i = some inode' ∧
      inode'.din = inode.din ∧ inode.Extends inode' ∧
      (inode' = inode ∧ s.Full ∨ inode'.dirty = true ∧ ¬ s.Full) := by
    rcases hrefused.inMemory with ⟨hsame, hfull⟩ | ⟨hdirty, hfull⟩
    · exact ⟨inode, hsame, rfl, Inode.Extends.refl inode, Or.inl ⟨rfl, hfull⟩⟩
    · exact ⟨_, hdirty, rfl, ⟨rfl, rfl, rfl, Or.inr rfl⟩, Or.inr ⟨rfl, hfull⟩⟩
  have hrestored := hrefused.restored
  have hsame := hrestored.same h hinode' ht hdin
  have hi := h.table i inode ht
  refine ⟨inode', Nat.zero_le _, ⟨hrestored.confined h hinode' ht hdin, hsame.core h,
    hsame.reached hr, ?_⟩, hinode', hextended, ?_,
      by simp, by simp, fun _ _ ↦ ⟨hbuf, Or.inl rfl⟩, ?_, ?_,
    by simp⟩
  · intro o
    rw [hsame.content h hi, if_neg]
    simp only [List.take_zero, List.length_nil]
    omega
  · rw [if_pos rfl, hsame.own h hi]
    exact hext
  · intro ret hret
    rw [Option.some.injEq] at hret
    exact Or.inl ⟨hret.symm, hrestored.allocFailed⟩
  · intro _ _
    rcases hclean with ⟨hinode, hfull⟩ | ⟨hdirty, hfull⟩
    · exact Or.inl ⟨hinode, hsame.own h hi, FailsClean.of_stuck (Or.inr ⟨hzero, hfull⟩)⟩
    · exact Or.inr ⟨hdirty, not_failsClean hl hzero hfull,
        fun _ ↦ not_lt.mp fun hlt ↦ hfull (hdirect hlt)⟩

/-- A turn that writes `m` bytes, and the rest of the loop. Unless the buffer ends in this block,
the rest starts at the next block. -/
theorem step {t u : FsState} {inode₁ inode' : Inode} {failure : Option ℤ} {m n : ℕ}
    (hm : m = min (blockSize - off % blockSize) buf.length) (hbuf : 0 < buf.length)
    (hl : off / blockSize < maxBlockNr) (hwrote : Wrote i off (buf.take m) s t)
    (hextended : inode.Extends inode₁) (hflag : t.allocFailed = s.allocFailed)
    (hpass : s.own i (Slot.ofLog (off / blockSize)) ≠ 0 →
      t.own i = s.own i ∧ (t.Full ↔ s.Full) ∧ inode₁ = inode)
    (hfresh : s.own i (Slot.ofLog (off / blockSize)) = 0 → ¬ s.Full ∧ inode₁.dirty = true)
    (hrest : LoopResult i (off + m) (buf.drop m) (max size (off + m : ℕ)) inode₁ t failure n u
      inode') :
    LoopResult i off buf size inode s failure (m + n) u inode' := by
  have hmod := Nat.mod_lt off (by decide : 0 < blockSize)
  have hlength : (buf.drop m).length = buf.length - m := List.length_drop
  have hle := hrest.le
  have hpos : 0 < m := by omega
  have hnext : m < buf.length → off + m = (off / blockSize + 1) * blockSize := by
    intro hlt
    simp only [blockSize] at *
    omega
  have hdiv : m < buf.length → (off + m) / blockSize = off / blockSize + 1 := by
    intro hlt
    rw [hnext hlt]
    exact Nat.mul_div_cancel _ (by decide)
  have hclean : s.own i (Slot.ofLog (off / blockSize)) ≠ 0 → ∀ k,
      (FailsClean s i (off / blockSize) k ↔ FailsClean t i (off / blockSize + 1) k) :=
    fun hne k ↦ failsClean_succ_iff (hpass hne).1 (hpass hne).2.1 hl hne k
  have hend : off + m + (buf.drop m).length = off + buf.length := by omega
  refine ⟨by omega, ?_, hrest.inMemory, hextended.trans hrest.extended, ?_, ?_, ?_, ?_,
    hend ▸ hrest.error, ?_, fun hnone ↦ (hrest.flag hnone).trans hflag⟩
  · rw [List.take_add]
    refine hwrote.append ?_
    rw [List.length_take, min_eq_left (by omega)]
    exact hrest.wrote
  · have hextent := hrest.extent
    rw [if_neg (by omega)]
    split_ifs at hextent with hn
    · rw [hn, add_zero]
      exact hextent
    · have hend : ((off + m : ℕ) : ℤ) ≤ (off + m + n : ℕ) := by exact_mod_cast Nat.le_add_right _ n
      rw [max_assoc, max_eq_right hend, add_assoc] at hextent
      exact hextent
  · intro hnone
    have := hrest.complete hnone
    omega
  · intro hnone _ k hk
    by_cases hzero : s.own i (Slot.ofLog (off / blockSize)) = 0
    · exact not_failsClean hl hzero (hfresh hzero).1 k
    · rw [hclean hzero k]
      by_cases hlt : m < buf.length
      · rw [← hdiv hlt]
        exact hrest.room hnone (by omega) k (by omega)
      · intro hfail
        have hge := hfail.le
        simp only [blockSize] at *
        omega
  · intro ret hret
    have hshort := hrest.short ret hret
    refine ⟨by omega, Or.inr ?_⟩
    rw [← add_assoc]
    rcases hshort.2 with hn | hdvd
    · rw [hn, add_zero, hnext (by omega)]
      exact Dvd.intro_left _ rfl
    · exact hdvd
  · intro ret hret
    have hlt : m < buf.length := by
      have := (hrest.short ret hret).1
      omega
    have hcases := hrest.clean ret hret
    rw [hdiv hlt, add_assoc] at hcases
    by_cases hzero : s.own i (Slot.ofLog (off / blockSize)) = 0
    · refine Or.inr ⟨?_, not_failsClean hl hzero (hfresh hzero).1, fun hn ↦ by omega⟩
      rcases hcases with ⟨hsame, -⟩ | ⟨hdirty, -⟩
      · rw [hsame]
        exact (hfresh hzero).2
      · exact hdirty
    · rw [← hclean hzero, (hpass hzero).1, (hpass hzero).2.2] at hcases
      rcases hcases with hsame | ⟨hdirty, hnone, -⟩
      · exact Or.inl hsame
      · exact Or.inr ⟨hdirty, fun k ↦ by rw [hclean hzero k]; exact hnone k, fun hn ↦ by omega⟩

end LoopResult

/-- The loop of `testfs_write_data` returns, and writes a prefix of its buffer. Once the buffer is
empty the place in the file does not matter. -/
theorem writeLoop_spec {i : ℕ} (turns : ℕ) : ∀ {s : FsState} {inode : Inode} {size : ℤ}
    (off pos l ix : ℕ) (buf : List UInt8) (block : Block), Core s → Reached s →
    s.inodeHashTable i = some inode → Extent (s.own i) size → buf.length ≤ turns →
    (0 < buf.length → l = off / blockSize ∧ ix = off % blockSize) →
    ∃ failure n t inode', (writeLoop i turns l ix pos buf block).run s = .ok
      ((failure, pos + n), t) ∧
      LoopResult i off buf size inode s failure n t inode' := by
  induction turns with
  | zero =>
    intro s inode size off pos l ix buf block h hr ht hext hturns _
    obtain rfl : buf = [] := List.length_eq_zero_iff.mp (Nat.le_zero.mp hturns)
    exact ⟨none, 0, s, inode, rfl, LoopResult.done h hr ht hext⟩
  | succ turns ih =>
    intro s inode size off pos l ix buf block h hr ht hext hturns hplace
    have hi := h.table i inode ht
    rw [writeLoop]
    by_cases hbuf : buf.length > 0
    swap
    · obtain rfl : buf = [] := List.length_eq_zero_iff.mp (Nat.le_zero.mp (not_lt.mp hbuf))
      exact ⟨none, 0, s, inode, rfl, LoopResult.done h hr ht hext⟩
    obtain ⟨rfl, rfl⟩ := hplace hbuf
    rw [if_pos hbuf]
    by_cases hl : off / blockSize < maxBlockNr
    swap
    · refine ⟨some (-eFBIG), 0, s, inode, ?_, LoopResult.tooBig h hr ht hext hbuf (not_lt.mp hl)⟩
      have hbig : (testfsAllocateBlock i (off / blockSize) block).run s = .ok
          ((-eFBIG, block), s) := by
        rw [testfsAllocateBlock, if_pos (not_lt.mp hl), Program.pure_run]
      rw [Program.run_bind hbig]
      rfl
    rcases testfsAllocateBlock_spec h hr ht hl block with
        ⟨t, hrun, halloc, hsame⟩ | ⟨t, hrun, hrefused, hzero, hdirect⟩
    swap
    · obtain ⟨inode', hresult⟩ := LoopResult.refused h hr ht hext hbuf hl hzero hrefused hdirect
      refine ⟨some (-eNOSPC), 0, t, inode', ?_, hresult⟩
      rw [Program.run_bind hrun]
      rfl
    obtain ⟨inode₁, hinode₁, hextended⟩ := halloc.grown.table inode ht
    have hsplit : off / blockSize * blockSize + off % blockSize = off := by
      rw [mul_comm]
      exact Nat.div_add_mod off blockSize
    have hmod := Nat.mod_lt off (by decide : 0 < blockSize)
    obtain ⟨m, hm⟩ : ∃ m, m = min (blockSize - off % blockSize) buf.length := ⟨_, rfl⟩
    have hwrote := Wrote.block hl hi halloc (off % blockSize) buf
    have hown := own_putData halloc.grown.core hi (Slot.isData_ofLog (off / blockSize))
      halloc.pos.ne'
      ((s.blockOf i (off / blockSize)).copyIn (off % blockSize) m fun k ↦ buf.getD k 0) hi
    rw [hsplit, ← hm] at hwrote
    have hextent : Extent (t.own i) (max size (off + m : ℕ)) := by
      refine hext.grow hl ?_ ?_ halloc.pos.ne' ?_ ?_
      · intro σ hσ
        rw [halloc.grown.own_keep σ hσ]
        exact hσ
      · exact fun σ hzero hne ↦ (halloc.grown.own_new σ hzero hne).1
      · simp only [blockSize] at *
        omega
      · simp only [blockSize] at *
        omega
    rw [← hown] at hextent
    obtain ⟨failure, n, u, inode', hrest, hresult⟩ := ih (off + m) (pos + m)
      (off / blockSize + 1) 0 (buf.drop m) ((s.blockOf i (off / blockSize)).copyIn
        (off % blockSize) m fun k ↦ buf.getD k 0) hwrote.core hwrote.reached hinode₁ hextent
        (by rw [List.length_drop]; omega) (by
          rw [List.length_drop]
          simp only [blockSize] at *
          omega)
    refine ⟨failure, m + n, u, inode', ?_, LoopResult.step hm hbuf hl hwrote hextended
      halloc.grown.flag ?_ ?_ hresult⟩
    · rw [Program.run_bind hrun]
      simp only [← hm]
      rw [if_neg (not_lt.mpr halloc.pos.le), Program.run_bind (writeBlocks_run halloc.pos.le _ _),
        ← add_assoc]
      exact hrest
    · intro hne
      obtain rfl := hsame hne
      rw [ht, Option.some.injEq] at hinode₁
      exact ⟨hown, Iff.rfl, hinode₁.symm⟩
    · intro hzero
      obtain ⟨hfull, inode₂, hinode₂, hdirty⟩ := halloc.fresh hzero
      rw [hinode₁, Option.some.injEq] at hinode₂
      exact ⟨hfull, hinode₂ ▸ hdirty⟩

/-! ### After the loop -/

/-- The in-memory inode when `testfs_write_data` returns, after its loop wrote `n` bytes. -/
def Inode.finishWrite (inode : Inode) (start : ℕ) (failure : Option ℤ) (n : ℕ) : Inode :=
  { inode with
    din := { inode.din with
      iSize := if n = 0 then inode.din.iSize else max inode.din.iSize (start + n : ℕ) }
    dirty := inode.dirty || failure.isNone }

theorem growSize_run {u : FsState} {i : ℕ} {inode : Inode} (hu : u.inodeHashTable i = some inode)
    (start n : ℕ) : (growSize i start n).run u = .ok ((), u.setInode i (some { inode with
      din := { inode.din with
        iSize := if n = 0 then inode.din.iSize else max inode.din.iSize (start + n : ℕ) } })) := by
  rw [growSize]
  by_cases hn : n = 0
  · rw [if_neg (by omega), if_pos hn, Program.pure_run, setInode_self hu]
  · rw [if_pos (by omega), if_neg hn, modifyDinode_run hu, Nat.cast_add]

theorem writeDone_run {u : FsState} {i : ℕ} {inode : Inode} (hu : u.inodeHashTable i = some inode)
    (start : ℕ) (failure : Option ℤ) (n : ℕ) :
    (writeDone i start failure n).run u = .ok (failure.getD (toInt32 n),
      u.setInode i (some (inode.finishWrite start failure n))) := by
  rw [writeDone.eq_def, Program.run_bind (growSize_run hu start n)]
  cases failure with
  | none =>
    refine (Program.run_bind (markDirty_run (inodeHashTable_setInode_self _ _ _))).trans ?_
    rw [setInode_setInode, Program.pure_run, Inode.finishWrite, Option.getD_none,
      Option.isNone_none, Bool.or_true]
  | some ret =>
    rw [Inode.finishWrite, Option.getD_some, Option.isNone_some, Bool.or_false, Program.pure_run]

/-- `testfs_write_data` runs its loop, stores the new size and, unless it failed, marks the inode.
-/
theorem testfsWriteData_spec {s : FsState} {i start : ℕ} {inode : Inode} (h : Core s)
    (hr : Reached s)
    (ht : s.inodeHashTable i = some inode) (hext : Extent (s.own i) inode.din.iSize)
    (hstart : start < maxFileSize) (buf : List UInt8) :
    ∃ failure n u inode₁, LoopResult i start buf inode.din.iSize inode s failure n u inode₁ ∧
      (testfsWriteData i buf start).run s = .ok (failure.getD (toInt32 n),
        u.setInode i (some (inode₁.finishWrite start failure n))) := by
  obtain ⟨failure, n, u, inode₁, hloop, hresult⟩ := writeLoop_spec buf.length start 0
    (start / blockSize) (start % blockSize) buf Block.zero h hr ht hext le_rfl fun _ ↦ ⟨rfl, rfl⟩
  refine ⟨failure, n, u, inode₁, hresult, ?_⟩
  rw [testfsWriteData, if_neg (not_le.mpr (Int.ofNat_lt.mpr hstart)),
    Program.check_bind_run (Or.inl (by positivity)), Int.toNat_natCast, Program.run_bind hloop,
      zero_add]
  exact writeDone_run hresult.inMemory start failure n

/-- `testfs_write_data` beyond the largest file does nothing. -/
theorem testfsWriteData_tooBig (s : FsState) (i : ℕ) (buf : List UInt8) {start : ℤ}
    (hstart : (maxFileSize : ℤ) ≤ start) : (testfsWriteData i buf start).run s = .ok
    (-eFBIG, s) := by
  rw [testfsWriteData, if_pos hstart, Program.pure_run]

end OperatingSystems.Fs
