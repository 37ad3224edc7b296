import MyMalloc.SuperblockSound

/-!
# The contract of a superblock

What a superblock promises to its users over any history: it is carved once,
then blocks are allocated and freed in any order while the clients write into
the blocks they hold. The events are `MyMalloc.BlockOp`; what their users must
respect is `MyMalloc.BlockWorld.Legal` – allocate only when there is a free
block, free only live blocks, write only inside live blocks.

The contract itself is `MyMalloc.Contract`, and it holds in every state of every
such run (`MyMalloc.superblock_contract`). It is read off the invariant
`MyMalloc.Sound`, whose ghost list of live blocks the run keeps.
-/

namespace MyMalloc

open ByteMemory LinkedList

/-! ### Allocating all that is left -/

/-- `n` allocations in a row: the blocks, the last one first, and the header
after them. -/
def allocMany (mem : Mem) : ℕ → SuperblockHeader → Option (List ℕ × SuperblockHeader)
  | 0, header => some ([], header)
  | n + 1, header => do
    let (p, header) ← superblockAlloc header mem
    let (ps, header) ← allocMany mem n header
    return (ps ++ [p], header)

namespace Sound

variable {x : ℕ} {header : SuperblockHeader} {mem : Mem} {live free : List ℕ}

/-- A superblock without free blocks has nothing to hand out: the next
allocation would follow the null pointer of its free list. -/
theorem alloc_eq_none (h : Sound x header mem live free) (hfull : header.numFreeBlocks = 0) :
    superblockAlloc header mem = none := by
  have hnum := h.numFree
  have hfree : free = [] := List.length_eq_zero_iff.mp (by omega)
  have hlist : header.freeList = none := by
    have hchain := h.chain
    rwa [hfree] at hchain
  rw [superblockAlloc, if_neg (by omega), hlist, Option.map_none]

/-- **No block is lost**: as many allocations as there are free blocks succeed,
with blocks that are new and pairwise distinct, and not one more. -/
theorem allocMany (h : Sound x header mem live free) (hx : IsSuperblock x) {n : ℕ}
    (hn : n ≤ header.numFreeBlocks) :
    ∃ ps header' free', MyMalloc.allocMany mem n header = some (ps, header') ∧ ps.length = n ∧
      Sound x header' mem (ps ++ live) free' ∧
      header'.numFreeBlocks = header.numFreeBlocks - n := by
  induction n generalizing header live free with
  | zero => exact ⟨[], header, free, rfl, rfl, h, rfl⟩
  | succ n ih =>
    obtain ⟨p, header₁, free₁, halloc, hsound, -, -, hnum⟩ := h.alloc hx (by omega)
    obtain ⟨ps, header₂, free₂, hmany, hlen, hsound', hnum'⟩ := ih hsound (by omega)
    refine ⟨ps ++ [p], header₂, free₂, ?_, by simp [hlen], ?_, by omega⟩
    · simp [MyMalloc.allocMany, halloc, hmany]
    · simpa using hsound'

end Sound

/-! ### Runs of one superblock -/

/-- A superblock with its memory and the ghost list of its live blocks. -/
structure BlockWorld where
  header : SuperblockHeader
  mem : Mem
  live : List ℕ

/-- One event in the life of a superblock. -/
inductive BlockOp where
  /-- `superblock_alloc`. -/
  | alloc : BlockOp
  /-- `superblock_free(ptr)`. -/
  | free (ptr : ℕ) : BlockOp
  /-- A client writes bytes at an offset into a block. -/
  | write (ptr off : ℕ) (bytes : List UInt8) : BlockOp
  deriving DecidableEq, Repr

namespace BlockWorld

/-- What an event does; `none` is a fault. -/
def step (w : BlockWorld) : BlockOp → Option BlockWorld
  | .alloc => (superblockAlloc w.header w.mem).map fun (p, header) =>
      { w with header := header, live := p :: w.live }
  | .free ptr =>
      let (header, mem) := superblockFree w.header w.mem ptr
      some ⟨header, mem, w.live.erase ptr⟩
  | .write ptr off bytes => some { w with mem := store w.mem (ptr + off) bytes }

/-- What the users of a superblock respect. -/
def Legal (w : BlockWorld) : BlockOp → Prop
  | .alloc => 0 < w.header.numFreeBlocks
  | .free ptr => ptr ∈ w.live
  | .write ptr off bytes => ptr ∈ w.live ∧ off + bytes.length ≤ w.header.blockSize

instance (w : BlockWorld) : DecidablePred w.Legal
  | .alloc => inferInstanceAs (Decidable (_ < _))
  | .free _ => inferInstanceAs (Decidable (_ ∈ _))
  | .write .. => inferInstanceAs (Decidable (_ ∧ _))

/-- The superblock at `x` just after `reset_superblock`. -/
def carved (x blockSize : ℕ) (header : SuperblockHeader) (mem : Mem) : BlockWorld :=
  ⟨resetSuperblock x blockSize header, mem, []⟩

/-- The invariant of a run: the superblock is sound, with its first block size. -/
def Inv (x blockSize : ℕ) (w : BlockWorld) : Prop :=
  (∃ free, Sound x w.header w.mem w.live free) ∧ w.header.blockSize = blockSize

/-- **One event** succeeds and keeps the invariant. -/
theorem inv_step {x blockSize : ℕ} (hx : IsSuperblock x) (w : BlockWorld) (op : BlockOp)
    (hw : Inv x blockSize w) (hop : w.Legal op) :
    ∃ w', w.step op = some w' ∧ Inv x blockSize w' := by
  obtain ⟨⟨free, hs⟩, hsize⟩ := hw
  cases op with
  | alloc =>
    obtain ⟨p, header', free', halloc, hs', -, hsame, -⟩ := hs.alloc hx hop
    exact ⟨{ w with header := header', live := p :: w.live }, by simp [step, halloc],
      ⟨free', hs'⟩, hsame.blockSize.trans hsize⟩
  | free ptr =>
    obtain ⟨header', mem', hfree, hs', hsame, -, -⟩ := hs.free_live hx hop
    exact ⟨⟨header', mem', w.live.erase ptr⟩, by simp [step, hfree], ⟨ptr :: free, hs'⟩,
      hsame.blockSize.trans hsize⟩
  | write ptr off bytes =>
    obtain ⟨hlive, hle⟩ := hop
    exact ⟨_, rfl, ⟨free, hs.write hlive fun i hi => store_outside (by omega)⟩, hsize⟩

end BlockWorld

/-! ### The contract -/

/-- **The contract of the superblock at `x`**, carved into blocks of the given
size. -/
structure Contract (x blockSize : ℕ) (w : BlockWorld) : Prop where
  /-- Its header still describes the blocks it was carved into. -/
  carving : w.header.blockSize = blockSize ∧
    w.header.totalBlocks = (superblockSize - sizeofSuperblockHeader) / blockSize
  /-- A live block is one of them, lies in the superblock after the header, is
  16-byte aligned and masks back to the superblock. -/
  block : ∀ p ∈ w.live, (∃ k < w.header.totalBlocks, p = w.header.bufferStart + k * blockSize) ∧
    x + sizeofSuperblockHeader ≤ p ∧ p + blockSize ≤ x + superblockSize ∧ 16 ∣ p ∧
    superblockOf p = x
  /-- No block was handed out while it was live. -/
  nodup : w.live.Nodup
  /-- The free and the live blocks add up to all blocks. -/
  count : w.header.numFreeBlocks + w.live.length = w.header.totalBlocks
  /-- The free list threaded through memory ends, has no duplicates, holds no
  live block and no block that was not reaped yet, and has the length the
  counters tell. -/
  freeList : ∃ free, Chain (nextFree w.mem) w.header.freeList free ∧ free.Nodup ∧
    List.Disjoint free w.live ∧
    (∀ k, w.header.totalBlocks - w.header.reapableBlocks ≤ k →
      w.header.bufferStart + k * blockSize ∉ free) ∧
    free.length = w.header.numFreeBlocks - w.header.reapableBlocks
  /-- Exactly as many further allocations succeed as there are free blocks, and
  they yield pairwise distinct blocks that are not live. -/
  rest : ∃ ps header, allocMany w.mem w.header.numFreeBlocks w.header = some (ps, header) ∧
    ps.length = w.header.numFreeBlocks ∧ ps.Nodup ∧ List.Disjoint ps w.live ∧
    superblockAlloc header w.mem = none
  /-- `is_superblock_empty` says that no block is live. -/
  isEmpty : isSuperblockEmpty w.header = true ↔ w.live = []
  /-- `used_bytes` counts the live blocks. -/
  used : usedBytes w.header = (w.live.length * blockSize : ℕ)

/-- The invariant gives the contract. -/
theorem BlockWorld.Inv.contract {x blockSize : ℕ} {w : BlockWorld} (hx : IsSuperblock x)
    (hw : BlockWorld.Inv x blockSize w) : Contract x blockSize w := by
  obtain ⟨⟨free, hs⟩, hsize⟩ := hw
  obtain ⟨hndlive, hndfree, hdisj⟩ := List.nodup_append.mp hs.nodup
  have hstart : ∀ k, w.header.bufferStart + k * blockSize = blockAt x w.header.blockSize k := by
    intro k
    rw [hs.bufferStart, hsize]
    simp only [blockAt]
    omega
  refine ⟨⟨hsize, hsize ▸ hs.total⟩, fun p hp => ?_, hndlive, hs.numFree_add_length,
    ⟨free, hs.chain, hndfree, fun q hq hq' => hdisj q hq' q hq rfl, fun k hk hmem => ?_, ?_⟩, ?_,
    hs.isEmpty_iff, ?_⟩
  · have hmem : p ∈ w.live ++ free := List.mem_append_left free hp
    obtain ⟨k, hk, hpk⟩ := hs.exists_index hmem
    obtain ⟨hlo, hhi, hdvd⟩ := hs.mem_buffer hx hmem
    rw [hsize] at hhi
    exact ⟨⟨k, by omega, by rw [hstart, hpk]⟩, hlo, by simpa using hhi, hdvd,
      hs.superblockOf_eq hx hmem⟩
  · rw [hstart] at hmem
    obtain ⟨k', hk', heq⟩ := hs.exists_index (List.mem_append_right w.live hmem)
    have hpos := hs.isClass.pos
    rcases blockAt_disjoint x w.header.blockSize
      (show k ≠ k' by omega) with hd | hd <;> omega
  · have := hs.numFree
    omega
  · obtain ⟨ps, header, free', hmany, hlen, hs', hnum⟩ := hs.allocMany hx le_rfl
    obtain ⟨hnd, -, -⟩ := List.nodup_append.mp hs'.nodup
    obtain ⟨hndps, -, hdisj'⟩ := List.nodup_append.mp hnd
    exact ⟨ps, header, hmany, hlen, hndps, fun q hq hq' => hdisj' q hq q hq' rfl,
      hs'.alloc_eq_none (by omega)⟩
  · rw [hs.usedBytes_eq, hsize]

/-- **The superblock allocator keeps its contract**: after carving, every run of
allocations, deallocations and clients' writes succeeds, and the contract holds
where it ends. -/
theorem superblock_contract {x blockSize : ℕ} (hx : IsSuperblock x) (hb : IsClass blockSize)
    (header : SuperblockHeader) (mem : Mem) (ops : List BlockOp)
    (hops : Trace.Always BlockWorld.step BlockWorld.Legal
      (BlockWorld.carved x blockSize header mem) ops) :
    ∃ w, Trace.run BlockWorld.step (BlockWorld.carved x blockSize header mem) ops = some w ∧
      Contract x blockSize w := by
  have hinit : BlockWorld.Inv x blockSize (BlockWorld.carved x blockSize header mem) :=
    ⟨⟨[], sound_reset hx hb header mem⟩, rfl⟩
  obtain ⟨w, hrun, hinv⟩ := Trace.run_of_always (BlockWorld.inv_step hx) hinit hops
  exact ⟨w, hrun, hinv.contract hx⟩

/-- A run in which the two blocks of a superblock are allocated, the first is
written to and freed, and allocated again. -/
theorem superblock_contract_two_blocks : ∃ w,
    Trace.run BlockWorld.step (BlockWorld.carved 262144 129472 {} fun _ => 0)
      [.alloc, .alloc, .write 262272 0 [255, 255], .free 262272, .alloc] = some w ∧
      Contract 262144 129472 w := by
  exact superblock_contract ⟨by decide, by decide, by decide⟩ ⟨by decide, by decide, by decide⟩
    {} (fun _ => 0) _ (by decide +kernel)

end MyMalloc
