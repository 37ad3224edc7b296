import MyMalloc.State

/-!
# Bin managers

The second half of `binmanager.c`: the five circular doubly linked lists of a
bin, filed by emptiness. The links are the `prev` and `next` fields of the
superblocks, shared by the lists of all bins of all heaps.

A `none` is a fault: a null pointer is dereferenced, an index is outside
`emptiness_bins`, or a division has no divisor; and, in `largealloc.c` and `mymalloc.c`,
`memcpy` or `memset` is given memory that is not mapped.
-/

namespace MyMalloc

/-- The emptiness class of a superblock with the given header, computed by
`get_eidx` on `unsigned int`. -/
def eidxOf (header : SuperblockHeader) : ℕ :=
  let numFullBlocks := sub32 header.totalBlocks header.numFreeBlocks
  let fullness := mul32 numFullBlocks (numEmptinessClasses - 1) / header.totalBlocks
  sub32 (numEmptinessClasses - 1) fullness

namespace State

variable (s : State)

/-- `get_eidx`. -/
def getEidx (superblock : ℕ) : Option (ℕ × State) :=
  let header := s.header superblock
  if header.totalBlocks = 0 then none
  else
    let eidx := eidxOf header
    some (eidx, s.assert (eidx < numEmptinessClasses) .eidxInRange)

/-- `push_into_bin`, the pointers it writes. -/
def linkHead (bm : BinPtr) (eidx superblock : ℕ) : Option State :=
  match (s.sizeBins bm).emptinessBins eidx with
  | none =>
    some (((s.setHead bm eidx superblock).setPrev superblock superblock).setNext
      superblock superblock)
  | some listHead => do
    let listTail := s.prev listHead
    let s := s.assert listTail.isSome .pushTail
    let tail ← listTail
    let s := (s.setNext tail superblock).setPrev superblock listTail
    let s := (s.setNext superblock listHead).setPrev listHead superblock
    some (s.setHead bm eidx superblock)

/-- `push_into_bin`. -/
def pushIntoBin (bm : BinPtr) (eidx superblock : ℕ) : Option State := do
  guard (eidx < numEmptinessClasses)
  let s ← s.linkHead bm eidx superblock
  if 0 < eidx then
    return s.setCount bm (add32 (s.sizeBins bm).numNonfullSuperblocks 1)
  else
    return s

/-- `delete_from_bin`, the pointers it writes. The case of a list of one element
is recognised by the superblock's own `prev` link. -/
def unlink (bm : BinPtr) (eidx superblock : ℕ) : Option State :=
  let listHead := (s.sizeBins bm).emptinessBins eidx
  let s := s.assert listHead.isSome .deleteHead
  if s.prev superblock = some superblock then
    let s := s.assert (s.next superblock = some superblock) .deleteAlone
    some (s.setHead bm eidx none)
  else do
    let prevSb := s.prev superblock
    let nextSb := s.next superblock
    let s := s.assert prevSb.isSome .deletePrev
    let s := s.assert nextSb.isSome .deleteNext
    let p ← prevSb
    let s := s.setNext p nextSb
    let n ← nextSb
    let s := s.setPrev n prevSb
    some (if listHead = some superblock then s.setHead bm eidx nextSb else s)

/-- `delete_from_bin`. -/
def deleteFromBin (bm : BinPtr) (eidx superblock : ℕ) : Option State := do
  guard (eidx < numEmptinessClasses)
  let s ← s.unlink bm eidx superblock
  if 0 < eidx then
    let s := s.assert (0 < (s.sizeBins bm).numNonfullSuperblocks) .deleteCount
    return s.setCount bm (sub32 (s.sizeBins bm).numNonfullSuperblocks 1)
  else
    return s

/-- `update_emptiness_class`. -/
def updateEmptinessClass (bm : BinPtr) (oldEidx : ℕ) (superblock : ℕ) : Option State := do
  let (newEidx, s) ← s.getEidx superblock
  let s ← s.deleteFromBin bm oldEidx superblock
  s.pushIntoBin bm newEidx superblock

end State

end MyMalloc
