import MyMalloc.Config
import MyMalloc.Lib.Search
import Mathlib.Data.List.Sort
import Mathlib.Order.Bounds.Defs

/-!
# The size table

The first half of `binmanager.c`: the block sizes (size classes) the small
allocator deals in, one for each bin, and the two maps between sizes and bins.

`MyMalloc.initSizeTable` is the loop that fills `size_table`, run once before
the first allocation; `MyMalloc.sizeTable` is the table it leaves. The rest of
the development uses four facts about that table – it is strictly increasing,
its entries are multiples of 16, the smallest is 16, and two of the largest fit
in a superblock – and the two maps: `MyMalloc.idx2class` reads an entry,
`MyMalloc.size2idx` is a binary search for the first entry that is at least the
requested size, and inverts `idx2class` on the table's own indices.

Neither depends on the entries: on any table that is strictly increasing and not
empty the search ends, reads entries in use only, and finds the least class that fits
(`MyMalloc.IsSizeTable.indexed`). `init_size_table` leaves such a table
(`MyMalloc.size2idx_least_class`).
-/

namespace MyMalloc

/-! ### Filling the table -/

/-- The inner loop of `init_size_table`: `while (new_sz <= sz) new_sz +=
MIN_BLOCK_SIZE`. Each turn adds 16, so `sz` turns are more than enough. -/
def growPast (sz : ℕ) : ℕ → ℕ → ℕ
  | 0, newSz => newSz
  | fuel + 1, newSz => if newSz ≤ sz then growPast sz fuel (newSz + minBlockSize) else newSz

/-- The size class tried after `sz`: `(size_t) ((double) sz * SIZE_RATIO)` – the
product by 1.5 is exact in a `double` for these sizes – cut down to a multiple
of `MIN_BLOCK_SIZE` and grown past `sz`. -/
def nextClass (sz : ℕ) : ℕ :=
  growPast sz sz ((sz * 3 / 2) &&& (2 ^ 64 - minBlockSize))

/-- The main loop of `init_size_table`, from the class `sz` on: the entries it
writes, with the assertions on the way that failed. -/
def fillTable (halfSb : ℕ) : ℕ → ℕ → List ℕ × List Assertion
  | 0, sz => ([sz], [])
  | fuel + 1, sz =>
    let newSz := nextClass sz
    if halfSb < newSz then ([sz], [])
    else
      let (sizes, failed) := fillTable halfSb fuel newSz
      (sz :: sizes, if newSz &&& (minBlockSize - 1) = 0 then failed else .alignedClass :: failed)

/-- What `init_size_table` leaves in the globals: the entries of `size_table` in
use, `max_block_size`, and the assertions that failed. -/
structure SizeTable where
  sizes : List ℕ
  maxBlockSize : ℕ
  failed : List Assertion

/-- `init_size_table`. The product of `half_sb` by the ratio 0.8, truncated, is
`half_sb * 4 / 5`. -/
def initSizeTable : SizeTable :=
  let halfSb := (superblockSize - sizeofSuperblockHeader) / 2
  let (sizes, failed) := fillTable halfSb maxNumBins minBlockSize
  let sz := sizes.getLast?.getD 0
  let (sizes, sz) := if sz < halfSb * 4 / 5 then (sizes ++ [halfSb], halfSb) else (sizes, sz)
  ⟨sizes, sz, if 2 * sz + sizeofSuperblockHeader ≤ superblockSize then failed
    else .twoMaxBlocksFit :: failed⟩

/-- `size_table`, as far as it is in use. -/
def sizeTable : List ℕ := initSizeTable.sizes

/-- `num_size_bins`. -/
def numSizeBins : ℕ := sizeTable.length

/-- `max_block_size`. -/
def maxBlockSize : ℕ := initSizeTable.maxBlockSize

theorem sizeTable_eq : sizeTable = [16, 32, 48, 64, 96, 144, 208, 304, 448, 672, 1008, 1504, 2256,
    3376, 5056, 7584, 11376, 17056, 25584, 38368, 57552, 86320, 129472] := by
  decide +kernel

@[simp] theorem maxBlockSize_eq : maxBlockSize = 129472 := by decide +kernel

@[simp] theorem numSizeBins_eq : numSizeBins = 23 := by
  rw [numSizeBins, sizeTable_eq]
  rfl

/-- **No assertion of `init_size_table` fails**: every class is a multiple of
16, and two blocks of the largest class fit in a superblock. -/
theorem initSizeTable_failed : initSizeTable.failed = [] := by decide +kernel

/-! ### The two maps -/

/-- `idx2class`. The entries of the array that are not in use are zero. -/
def idx2class (idx : ℕ) : ℕ := sizeTable.getD idx 0

/-- `size2idx` on a table: the binary search, reading only the entries in use. -/
def size2idxIn (table : List ℕ) (size : ℕ) : Option ℕ :=
  BinarySearch.search (fun s => table[s]?.map fun c => decide (c < size)) table.length

/-- `size2idx`. -/
def size2idx (size : ℕ) : Option ℕ := size2idxIn sizeTable size

/-- The bin a size belongs to: the first whose class is at least the size. -/
def binOf (size : ℕ) : ℕ := sizeTable.findIdx fun c => decide (size ≤ c)

/-- The first entry that is at least `size` is at least `size`. -/
theorem le_getElem_findIdx {table : List ℕ} {size : ℕ}
    (h : table.findIdx (fun c => decide (size ≤ c)) < table.length) :
    size ≤ table[table.findIdx fun c => decide (size ≤ c)] := by
  simpa using List.findIdx_getElem (w := h)

/-- In a strictly increasing list the entries below `size` are those in front of
the first entry that is at least `size`. -/
theorem getElem_lt_iff_lt_findIdx {table : List ℕ} (hs : table.Pairwise (· < ·)) {size s : ℕ}
    (h : s < table.length) :
    table[s] < size ↔ s < table.findIdx fun c => decide (size ≤ c) := by
  constructor
  · intro hlt
    by_contra hle
    have hle : table.findIdx (fun c => decide (size ≤ c)) ≤ s := Nat.le_of_not_lt hle
    have hlen : table.findIdx (fun c => decide (size ≤ c)) < table.length := by omega
    have hge := le_getElem_findIdx hlen
    rcases Nat.lt_or_eq_of_le hle with hlt' | heq
    · have := List.pairwise_iff_getElem.mp hs _ _ hlen h hlt'
      omega
    · have : table[table.findIdx fun c => decide (size ≤ c)] = table[s] := by simp only [heq]
      omega
  · intro hlt
    simpa using List.not_of_lt_findIdx hlt

/-- In a strictly increasing list the first entry that is at least an entry is that
entry. -/
theorem findIdx_getElem_self {table : List ℕ} (hs : table.Pairwise (· < ·)) {b : ℕ}
    (h : b < table.length) : table.findIdx (fun c => decide (table[b] ≤ c)) = b := by
  have hnot : ¬b < table.findIdx fun c => decide (table[b] ≤ c) := fun hc =>
    lt_irrefl _ ((getElem_lt_iff_lt_findIdx hs h).mpr hc)
  rcases Nat.lt_or_eq_of_le (Nat.le_of_not_lt hnot) with hlt | heq
  · have hlen : table.findIdx (fun c => decide (table[b] ≤ c)) < table.length := hlt.trans h
    have hge := le_getElem_findIdx hlen
    have := List.pairwise_iff_getElem.mp hs _ _ hlen h hlt
    omega
  · exact heq

/-- **The binary search returns the first entry that fits**, on every strictly
increasing table. -/
theorem size2idxIn_eq {table : List ℕ} (hs : table.Pairwise (· < ·)) (size : ℕ) :
    size2idxIn table size = some (table.findIdx fun c => decide (size ≤ c)) := by
  refine BinarySearch.search_eq (fun s h => ?_) List.findIdx_le_length
  rw [List.getElem?_eq_getElem h, Option.map_some]
  exact congrArg some (decide_eq_decide.mpr (getElem_lt_iff_lt_findIdx hs h))

theorem sizeTable_sorted : sizeTable.Pairwise (· < ·) := by
  rw [sizeTable_eq]
  decide

@[simp] theorem size2idx_eq (size : ℕ) : size2idx size = some (binOf size) :=
  size2idxIn_eq sizeTable_sorted size

theorem idx2class_of_lt {idx : ℕ} (h : idx < sizeTable.length) :
    idx2class idx = sizeTable[idx] := by
  rw [idx2class, List.getD_eq_getElem?_getD, List.getElem?_eq_getElem h, Option.getD_some]

theorem binOf_lt {size : ℕ} (h : size ≤ maxBlockSize) : binOf size < numSizeBins := by
  refine List.findIdx_lt_length_of_exists ⟨maxBlockSize, ?_, by simpa using h⟩
  rw [sizeTable_eq]
  simp

/-- **The class of a size's bin is large enough.** -/
theorem le_idx2class_binOf {size : ℕ} (h : size ≤ maxBlockSize) :
    size ≤ idx2class (binOf size) := by
  have hlt : binOf size < sizeTable.length := binOf_lt h
  rw [idx2class_of_lt hlt]
  exact le_getElem_findIdx hlt

/-- Every class is at most `max_block_size`. -/
theorem idx2class_le {b : ℕ} (h : b < numSizeBins) : idx2class b ≤ maxBlockSize := by
  have hall : ∀ c ∈ sizeTable, c ≤ maxBlockSize := by
    rw [sizeTable_eq, maxBlockSize_eq]
    decide
  have hb : b < sizeTable.length := h
  rw [idx2class_of_lt hb]
  exact hall _ (List.getElem_mem hb)

/-- **`size2idx` inverts `idx2class`**: the bin of a class is its own. -/
theorem binOf_idx2class {b : ℕ} (h : b < numSizeBins) : binOf (idx2class b) = b := by
  have hb : b < sizeTable.length := h
  rw [idx2class_of_lt hb]
  exact findIdx_getElem_self sizeTable_sorted hb

/-! ### The classes -/

/-- What holds of every size class: a multiple of 16, at least 16, and at most
half of what a superblock has to give. -/
structure IsClass (sizeClass : ℕ) : Prop where
  dvd : 16 ∣ sizeClass
  pos : 16 ≤ sizeClass
  le : sizeClass ≤ (superblockSize - sizeofSuperblockHeader) / 2

theorem isClass_idx2class {b : ℕ} (h : b < numSizeBins) : IsClass (idx2class b) := by
  have hall : ∀ c ∈ sizeTable, 16 ∣ c ∧ 16 ≤ c ∧
      c ≤ (superblockSize - sizeofSuperblockHeader) / 2 := by
    rw [sizeTable_eq]
    decide
  have hb : b < sizeTable.length := h
  rw [idx2class_of_lt hb]
  obtain ⟨h₁, h₂, h₃⟩ := hall _ (List.getElem_mem hb)
  exact ⟨h₁, h₂, h₃⟩

/-! ### Any table -/

/-- `idx2class` on a table. -/
def idx2classIn (table : List ℕ) (idx : ℕ) : ℕ := table.getD idx 0

/-- `size2idx` on a table, with the indices its loop reads. -/
def size2idxTrace (table : List ℕ) (size : ℕ) : List ℕ × Option ℕ :=
  BinarySearch.trace (fun s => table[s]?.map fun c => decide (c < size)) table.length 0
    table.length

/-- What `size2idx` relies on. -/
structure IsSizeTable (table : List ℕ) : Prop where
  sorted : table.Pairwise (· < ·)
  nonempty : 0 < table.length

/-- **The bins of a table**, as `heap_alloc` and `heap_free` compute them. -/
structure Indexed (table : List ℕ) : Prop where
  /-- The loop ends, with the least class that fits. -/
  least : ∀ size ≤ idx2classIn table (table.length - 1), ∃ i,
    size2idxIn table size = some i ∧
      IsLeast {k | k < table.length ∧ size ≤ idx2classIn table k} i
  /-- It reads entries in use only. -/
  probes : ∀ size, (size2idxTrace table size).2 = size2idxIn table size ∧
    ∀ s ∈ (size2idxTrace table size).1, s < table.length
  /-- The class of a size is large enough. -/
  fits : ∀ size ≤ idx2classIn table (table.length - 1), ∀ i,
    size2idxIn table size = some i → size ≤ idx2classIn table i
  /-- The bin of a class is its own. -/
  inverse : ∀ i < table.length, size2idxIn table (idx2classIn table i) = some i
  /-- Larger sizes go to no smaller bins. -/
  monotone : ∀ size size', size ≤ size' → ∀ i i', size2idxIn table size = some i →
    size2idxIn table size' = some i' → i ≤ i'

section

variable {table : List ℕ} {size size' : ℕ}

theorem idx2classIn_of_lt {idx : ℕ} (h : idx < table.length) :
    idx2classIn table idx = table[idx] := by
  rw [idx2classIn, List.getD_eq_getElem?_getD, List.getElem?_eq_getElem h, Option.getD_some]

/-- **The first entry that fits is the least one**, if any fits. -/
theorem isLeast_findIdx (h : table.findIdx (fun c => decide (size ≤ c)) < table.length) :
    IsLeast {k | k < table.length ∧ size ≤ idx2classIn table k}
      (table.findIdx fun c => decide (size ≤ c)) := by
  constructor
  · refine ⟨h, ?_⟩
    rw [idx2classIn_of_lt h]
    exact le_getElem_findIdx h
  · rintro k ⟨hk, hfits⟩
    rw [idx2classIn_of_lt hk] at hfits
    by_contra hlt
    exact of_decide_eq_false (List.not_of_lt_findIdx (Nat.lt_of_not_le hlt)) hfits

/-- A larger size fits no earlier. -/
theorem findIdx_mono (h : size ≤ size') :
    table.findIdx (fun c => decide (size ≤ c)) ≤ table.findIdx fun c => decide (size' ≤ c) := by
  by_contra hlt
  have hlt := Nat.lt_of_not_le hlt
  have hlen := lt_of_lt_of_le hlt List.findIdx_le_length
  exact of_decide_eq_false (List.not_of_lt_findIdx hlt) (h.trans (le_getElem_findIdx hlen))

end

/-- **On every size table** the two maps are what allocation and deallocation need. -/
theorem IsSizeTable.indexed {table : List ℕ} (h : IsSizeTable table) : Indexed table := by
  have hpos := h.nonempty
  have hlast : table.length - 1 < table.length := by omega
  have hfound : ∀ size ≤ idx2classIn table (table.length - 1),
      table.findIdx (fun c => decide (size ≤ c)) < table.length := by
    intro size hsize
    rw [idx2classIn_of_lt hlast] at hsize
    exact List.findIdx_lt_length_of_exists ⟨_, List.getElem_mem hlast, decide_eq_true hsize⟩
  constructor
  · intro size hsize
    exact ⟨_, size2idxIn_eq h.sorted size, isLeast_findIdx (hfound size hsize)⟩
  · intro size
    exact ⟨BinarySearch.trace_snd .., fun s hs => (BinarySearch.mem_trace hs).2⟩
  · rintro size hsize i hi
    rw [size2idxIn_eq h.sorted, Option.some.injEq] at hi
    exact hi ▸ (isLeast_findIdx (hfound size hsize)).1.2
  · intro i hi
    rw [idx2classIn_of_lt hi, size2idxIn_eq h.sorted, findIdx_getElem_self h.sorted hi]
  · rintro size size' hle i i' hi hi'
    rw [size2idxIn_eq h.sorted, Option.some.injEq] at hi hi'
    exact hi ▸ hi' ▸ findIdx_mono hle

/-- **`size2idx` finds the least class that fits**, on every strictly increasing table
that is not empty; the one that `init_size_table` builds is such a table, of multiples
of `MIN_BLOCK_SIZE`, with `max_block_size` as its last entry. -/
theorem size2idx_least_class : (∀ table, IsSizeTable table → Indexed table) ∧
    IsSizeTable sizeTable ∧ sizeTable.getLast? = some maxBlockSize ∧
    ∀ c ∈ sizeTable, minBlockSize ∣ c := by
  refine ⟨fun table h => h.indexed, ⟨sizeTable_sorted, ?_⟩, ?_, ?_⟩
  · rw [sizeTable_eq]
    decide
  · rw [sizeTable_eq, maxBlockSize_eq]
    decide
  · rw [sizeTable_eq, minBlockSize_eq]
    decide

/-- A table of two classes. -/
theorem size2idx_least_class_two : Indexed [16, 48] :=
  size2idx_least_class.1 [16, 48] ⟨by decide, by decide⟩

end MyMalloc
