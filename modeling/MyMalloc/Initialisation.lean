import MyMalloc.SizeTable
import MyMalloc.Lib.SharedInit
import Mathlib.Data.List.Chain
import Mathlib.Tactic.Ring

/-!
# The initialisation of the size table

`init_size_table` for every `SUPERBLOCK_SIZE`, and by several threads at a time.

The superblock size is a macro that a build may change. For every value that `init_size_table`
can work with, the table it builds is one on which the two maps between sizes and bins are
right, and it fits in its array (`MyMalloc.init_size_table_sound`). The value of `macros.h`
never takes the branch that adds a last class; other values do.

`malloc` calls `init_size_table` when `size_table_initialized` is not set, and takes no
lock for that. So threads that allocate for the first time may run it at the same time,
and one of them may still be writing when another allocates already. If the stores take
effect one by one and in program order, no thread sees a table that is not finished
(`MyMalloc.size_table_shared`).
-/

namespace MyMalloc

/-! ### Any superblock size -/

/-- `init_size_table` when `SUPERBLOCK_SIZE` has some other value. -/
def initSizeTableOf (sbSize : ℕ) : SizeTable :=
  let halfSb := (sbSize - sizeofSuperblockHeader) / 2
  let (sizes, failed) := fillTable halfSb maxNumBins minBlockSize
  let sz := sizes.getLast?.getD 0
  let (sizes, sz) := if sz < halfSb * 4 / 5 then (sizes ++ [halfSb], halfSb) else (sizes, sz)
  ⟨sizes, sz, if 2 * sz + sizeofSuperblockHeader ≤ sbSize then failed
    else .twoMaxBlocksFit :: failed⟩

theorem initSizeTableOf_superblockSize : initSizeTableOf superblockSize = initSizeTable := rfl

/-- Cutting a size down to a multiple of `MIN_BLOCK_SIZE`. -/
theorem and_not_minBlockSize {n : ℕ} (hn : n < 2 ^ 64) :
    n &&& (2 ^ 64 - minBlockSize) = n / 16 * 16 := by
  have hmask : 2 ^ 64 - minBlockSize = (2 ^ 60 - 1) <<< 4 := by decide
  have hdiv : n / 16 * 16 = n >>> 4 <<< 4 := by
    rw [Nat.shiftRight_eq_div_pow, Nat.shiftLeft_eq]
  rw [hmask, hdiv]
  refine Nat.eq_of_testBit_eq fun i => ?_
  rw [Nat.testBit_and, Nat.testBit_shiftLeft, Nat.testBit_shiftLeft, Nat.testBit_two_pow_sub_one,
    Nat.testBit_shiftRight]
  by_cases hi : 4 ≤ i
  · rw [show 4 + (i - 4) = i by omega]
    by_cases hlt : i < 64
    · simp [hi, show i - 4 < 60 by omega]
    · have hbit : n.testBit i = false :=
        Nat.testBit_lt_two_pow (lt_of_lt_of_le hn (Nat.pow_le_pow_right (by omega) (by omega)))
      simp [hbit]
  · simp [hi]

/-- **The inner loop** grows a multiple of 16 to the next one past the old class, if it is
not there yet. -/
theorem growPast_spec {sz fuel newSz : ℕ} (hsz : 16 ∣ sz) (hnew : 16 ∣ newSz)
    (hfuel : sz < newSz + 16 * fuel) :
    growPast sz fuel newSz = if newSz ≤ sz then sz + 16 else newSz := by
  induction fuel generalizing newSz with
  | zero =>
    rw [growPast, if_neg (by omega)]
  | succ fuel ih =>
    rw [growPast]
    by_cases hle : newSz ≤ sz
    · rw [if_pos hle, if_pos hle, minBlockSize_eq, ih (by omega) (by omega)]
      split <;> omega
    · rw [if_neg hle, if_neg hle]

/-- What a class and the next one have to do with each other: the next one is a multiple of
16 that is larger, but by no more than half, or by 16. -/
structure Follows (sz newSz : ℕ) : Prop where
  lt : sz < newSz
  dvd : 16 ∣ newSz
  le : newSz ≤ sz + 16 ∨ 2 * newSz ≤ 3 * sz

/-- **The next class** follows the one before, and is by half larger, up to the rounding. -/
theorem nextClass_spec {sz : ℕ} (hsz : 16 ∣ sz) (hpos : 16 ≤ sz) (hlt : sz < 2 ^ 32) :
    Follows sz (nextClass sz) ∧ 3 * sz ≤ 2 * nextClass sz + 16 := by
  have hgrow : nextClass sz =
      if sz * 3 / 2 / 16 * 16 ≤ sz then sz + 16 else sz * 3 / 2 / 16 * 16 := by
    rw [nextClass, and_not_minBlockSize (by omega)]
    exact growPast_spec hsz (Nat.dvd_mul_left ..) (by omega)
  rw [hgrow]
  split <;> exact ⟨⟨by omega, by omega, by omega⟩, by omega⟩

/-- **What the main loop leaves** when it starts from a class: a chain of classes that
follow each other, of a bounded length, the last one such that the next would be too
large. -/
structure Filled (halfSb sz n : ℕ) (sizes : List ℕ) : Prop where
  head : sizes.head? = some sz
  chain : sizes.IsChain Follows
  classes : ∀ c ∈ sizes, 16 ∣ c ∧ 16 ≤ c ∧ c ≤ halfSb
  length : sizes.length ≤ n + 1
  last : ∀ c ∈ sizes.getLast?, halfSb < nextClass c

variable {halfSb sz n : ℕ} {sizes : List ℕ}

theorem Filled.single (hsz : 16 ∣ sz) (hpos : 16 ≤ sz) (hle : sz ≤ halfSb)
    (hlast : halfSb < nextClass sz) : Filled halfSb sz n [sz] where
  head := rfl
  chain := .singleton sz
  classes c hc := by
    obtain rfl := List.mem_singleton.mp hc
    exact ⟨hsz, hpos, hle⟩
  length := by simp
  last c hc := by
    obtain rfl := Option.some.inj hc
    exact hlast

theorem Filled.cons (hsz : 16 ∣ sz) (hpos : 16 ≤ sz) (hle : sz ≤ halfSb) (hlt : halfSb < 2 ^ 32)
    (h : Filled halfSb (nextClass sz) n sizes) : Filled halfSb sz (n + 1) (sz :: sizes) := by
  obtain ⟨hfollows, -⟩ := nextClass_spec hsz hpos (by omega)
  have hne : sizes ≠ [] := by
    rintro rfl
    cases h.head
  constructor
  · rfl
  · refine h.chain.cons fun c hc => ?_
    obtain rfl := Option.some.inj (h.head.symm.trans hc)
    exact hfollows
  · intro c hc
    rcases List.mem_cons.mp hc with rfl | hc
    · exact ⟨hsz, hpos, hle⟩
    · exact h.classes c hc
  · have := h.length
    rw [List.length_cons]
    omega
  · rw [List.getLast?_cons_of_ne_nil hne]
    exact h.last

/-- **The main loop** ends within `n` more turns if a class could not grow by half so
often. No assertion in it fails. -/
theorem fillTable_filled {fuel : ℕ} (hsz : 16 ∣ sz) (hpos : 16 ≤ sz) (hle : sz ≤ halfSb)
    (hlt : halfSb < 2 ^ 32) (hn : n ≤ fuel)
    (hgrow : 2 ^ n * (halfSb - 16) < 3 ^ n * (sz - 16)) :
    ∃ sizes, fillTable halfSb fuel sz = (sizes, []) ∧ Filled halfSb sz n sizes := by
  induction fuel generalizing n sz with
  | zero =>
    obtain rfl : n = 0 := by omega
    omega
  | succ fuel ih =>
    obtain ⟨hfollows, hhalf⟩ := nextClass_spec hsz hpos (by omega)
    rw [fillTable]
    by_cases hnew : halfSb < nextClass sz
    · exact ⟨[sz], by simp only [if_pos hnew], .single hsz hpos hle hnew⟩
    cases n with
    | zero => omega
    | succ n =>
      have hgrow' : 2 ^ n * (halfSb - 16) < 3 ^ n * (nextClass sz - 16) := by
        have hmul : 3 ^ n * (3 * (sz - 16)) ≤ 3 ^ n * (2 * (nextClass sz - 16)) :=
          Nat.mul_le_mul_left _ (by omega)
        have hsucc : 2 ^ (n + 1) * (halfSb - 16) = 2 * (2 ^ n * (halfSb - 16)) := by ring
        have hsucc' : 3 ^ (n + 1) * (sz - 16) = 3 ^ n * (3 * (sz - 16)) := by ring
        have htwo : 3 ^ n * (2 * (nextClass sz - 16)) = 2 * (3 ^ n * (nextClass sz - 16)) := by ring
        omega
      obtain ⟨sizes, heq, hfilled⟩ := ih hfollows.dvd (by omega) (by omega) (by omega) hgrow'
      have haligned : nextClass sz &&& (minBlockSize - 1) = 0 := by
        rw [minBlockSize_eq, show 16 - 1 = 2 ^ 4 - 1 from rfl, Nat.and_two_pow_sub_one_eq_mod]
        exact Nat.mod_eq_zero_of_dvd hfollows.dvd
      exact ⟨sz :: sizes, by simp only [if_neg hnew, heq, if_pos haligned],
        hfilled.cons hsz hpos hle hlt⟩

/-- **A chain from the smallest class**: it ends in time for the array, with room for one
more class. -/
theorem fillTable_start (hpos : 16 ≤ halfSb) (hlt : halfSb < 2 ^ 32) :
    ∃ sizes, fillTable halfSb maxNumBins minBlockSize = (sizes, []) ∧
      Filled halfSb minBlockSize 62 sizes := by
  have hclass : nextClass 16 = 32 := by decide
  rw [maxNumBins_eq, minBlockSize_eq, fillTable, hclass]
  by_cases hnew : halfSb < 32
  · exact ⟨[16], by simp only [if_pos hnew],
      .single (by omega) le_rfl hpos (by rw [hclass]; exact hnew)⟩
  · have hgrow : 2 ^ 61 * (halfSb - 16) < 3 ^ 61 * (32 - 16) := by omega
    have hfills : ∃ sizes, fillTable halfSb 127 32 = (sizes, []) ∧ Filled halfSb 32 61 sizes :=
      fillTable_filled (by decide) (by decide) (by omega) hlt (by decide) hgrow
    obtain ⟨sizes, heq, hfilled⟩ := hfills
    rw [← hclass] at hfilled
    exact ⟨16 :: sizes, by simp only [if_neg hnew, heq]; rfl,
      hfilled.cons (by decide) (by decide) hpos hlt⟩

/-- **A table that `init_size_table` may leave**, for some size of superblocks. -/
structure SizeTable.Sound (t : SizeTable) (sbSize : ℕ) : Prop where
  failed : t.failed = []
  head : t.sizes.head? = some minBlockSize
  last : t.sizes.getLast? = some t.maxBlockSize
  chain : t.sizes.IsChain Follows
  /-- Two blocks of any class fit in a superblock. -/
  fits : ∀ c ∈ t.sizes, 2 * c + sizeofSuperblockHeader ≤ sbSize
  /-- Requests of up to 80 % of half a superblock are served. -/
  large : (sbSize - sizeofSuperblockHeader) / 2 * 4 / 5 ≤ t.maxBlockSize
  room : t.sizes.length ≤ maxNumBins

/-- The table without a last class that is added. -/
theorem Filled.sound {sbSize : ℕ} (h : Filled halfSb minBlockSize 62 sizes)
    (hhalf : halfSb = (sbSize - sizeofSuperblockHeader) / 2) (hpos : 16 ≤ halfSb) {last : ℕ}
    (hlast : sizes.getLast? = some last) (hlarge : halfSb * 4 / 5 ≤ last) :
    SizeTable.Sound ⟨sizes, last, []⟩ sbSize where
  failed := rfl
  head := h.head
  last := hlast
  chain := h.chain
  fits c hc := by
    have hle := (h.classes c hc).2.2
    rw [sizeofSuperblockHeader_eq] at *
    omega
  large := by
    rw [← hhalf]
    exact hlarge
  room := h.length.trans (by decide)

/-- The table with a last class that is added. -/
theorem Filled.sound_concat {sbSize : ℕ} (h : Filled halfSb minBlockSize 62 sizes)
    (hhalf : halfSb = (sbSize - sizeofSuperblockHeader) / 2) (hpos : 16 ≤ halfSb)
    (hdvd : 16 ∣ halfSb) (hlt : halfSb < 2 ^ 32) {last : ℕ} (hlast : sizes.getLast? = some last)
    (hsmall : last < halfSb * 4 / 5) :
    SizeTable.Sound ⟨sizes ++ [halfSb], halfSb, []⟩ sbSize where
  failed := rfl
  head := by
    rw [List.head?_append, h.head]
    rfl
  last := by simp
  chain := by
    refine h.chain.append (.singleton halfSb) fun c hc y hy => ?_
    obtain rfl := Option.some.inj (hlast.symm.trans hc)
    obtain rfl := Option.some.inj hy
    obtain ⟨hclass, hge, hle⟩ := h.classes last (List.mem_of_getLast? hlast)
    -- The class that would have followed is larger still.
    have hnext := h.last last hlast
    obtain ⟨⟨-, -, hstep⟩, -⟩ := nextClass_spec hclass hge (by omega)
    exact ⟨by omega, hdvd, by omega⟩
  fits c hc := by
    rw [sizeofSuperblockHeader_eq] at *
    rcases List.mem_append.mp hc with hc | hc
    · have hle := (h.classes c hc).2.2
      omega
    · obtain rfl := List.mem_singleton.mp hc
      omega
  large := by
    rw [← hhalf]
    show halfSb * 4 / 5 ≤ halfSb
    omega
  room := by
    have hlen := h.length
    rw [maxNumBins_eq, List.length_append, List.length_singleton]
    omega

/-- **`init_size_table` is sound** for every size of superblocks of which an `int` can hold
and that a superblock header and a block leave anything of. -/
theorem initSizeTableOf_spec {sbSize : ℕ} (hdvd : 32 ∣ sbSize) (hpos : 160 ≤ sbSize)
    (hlt : sbSize < 2 ^ 31) : (initSizeTableOf sbSize).Sound sbSize := by
  obtain ⟨halfSb, hhalf⟩ : ∃ halfSb, halfSb = (sbSize - sizeofSuperblockHeader) / 2 := ⟨_, rfl⟩
  have hhalf' := hhalf
  rw [sizeofSuperblockHeader_eq] at hhalf'
  obtain ⟨sizes, heq, hfilled⟩ := fillTable_start (show 16 ≤ halfSb by omega) (by omega)
  obtain ⟨last, hlast⟩ : ∃ last, sizes.getLast? = some last := by
    cases hc : sizes.getLast? with
    | none =>
      rw [List.getLast?_eq_none_iff.mp hc] at hfilled
      cases hfilled.head
    | some last => exact ⟨last, rfl⟩
  have hle := (hfilled.classes last (List.mem_of_getLast? hlast)).2.2
  have hfits : ∀ sz ≤ halfSb, 2 * sz + sizeofSuperblockHeader ≤ sbSize := by
    intro sz hsz
    rw [sizeofSuperblockHeader_eq]
    omega
  rw [initSizeTableOf, ← hhalf]
  simp only [heq, hlast, Option.getD_some]
  by_cases hsmall : last < halfSb * 4 / 5
  · simp only [if_pos hsmall, if_pos (hfits halfSb le_rfl)]
    exact hfilled.sound_concat hhalf (by omega) (by omega) (by omega) hlast hsmall
  · simp only [if_neg hsmall, if_pos (hfits last hle)]
    exact hfilled.sound hhalf (by omega) hlast (by omega)

namespace SizeTable.Sound

variable {t : SizeTable} {sbSize : ℕ} (h : t.Sound sbSize)

include h

theorem isSizeTable : IsSizeTable t.sizes where
  sorted := (h.chain.imp fun _ _ hf => hf.lt).pairwise
  nonempty := List.length_pos_of_mem (List.mem_of_getLast? h.last)

/-- A class is not much larger than a size for which the class before is too small. -/
theorem class_lt {size i : ℕ} (hpos : 1 ≤ size) (hi : i < t.sizes.length)
    (hbefore : ∀ k, ∀ hk : k < t.sizes.length, k < i → t.sizes[k] < size) :
    t.sizes[i] < size + 16 ∨ 2 * t.sizes[i] < 3 * size := by
  cases i with
  | zero =>
    have hfirst : some t.sizes[0] = some minBlockSize := by
      rw [← List.getElem?_eq_getElem hi, ← List.head?_eq_getElem?, h.head]
    have hclass : t.sizes[0] = 16 := Option.some.inj hfirst
    omega
  | succ i =>
    have hlt := hbefore i (by omega) (by omega)
    have hle := (h.chain.getElem i hi).le
    omega

/-- **No class is much larger than what it is used for**: a request is rounded up by less
than 16 bytes, or by less than a half. -/
theorem rounded {size : ℕ} (hpos : 1 ≤ size) (hle : size ≤ t.maxBlockSize) :
    ∃ i, size2idxIn t.sizes size = some i ∧ i < t.sizes.length ∧
      size ≤ idx2classIn t.sizes i ∧
      (idx2classIn t.sizes i < size + 16 ∨ 2 * idx2classIn t.sizes i < 3 * size) := by
  have hfound : t.sizes.findIdx (fun c => decide (size ≤ c)) < t.sizes.length :=
    List.findIdx_lt_length_of_exists ⟨_, List.mem_of_getLast? h.last, decide_eq_true hle⟩
  refine ⟨_, size2idxIn_eq h.isSizeTable.sorted size, hfound, ?_⟩
  rw [idx2classIn_of_lt hfound]
  refine ⟨le_getElem_findIdx hfound, h.class_lt hpos hfound fun k hk hlt => ?_⟩
  exact Nat.lt_of_not_le (of_decide_eq_false (List.not_of_lt_findIdx hlt))

end SizeTable.Sound

/-- **`init_size_table` is sound** for every size of superblocks that an `int` can hold and
in which there is room for two blocks: the classes are multiples of 16 that grow by no more
than a half, from the smallest to one of which two fit in a superblock, and fit in the
array; no assertion fails; the two maps between sizes and bins are right; and no request
is rounded up by 16 bytes and by a half of its size. -/
theorem init_size_table_sound {sbSize : ℕ} (hdvd : 32 ∣ sbSize) (hpos : 160 ≤ sbSize)
    (hlt : sbSize < 2 ^ 31) :
    (initSizeTableOf sbSize).Sound sbSize ∧ Indexed (initSizeTableOf sbSize).sizes ∧
    ∀ size, 1 ≤ size → size ≤ (initSizeTableOf sbSize).maxBlockSize →
      ∃ i, size2idxIn (initSizeTableOf sbSize).sizes size = some i ∧
        i < (initSizeTableOf sbSize).sizes.length ∧
        size ≤ idx2classIn (initSizeTableOf sbSize).sizes i ∧
        (idx2classIn (initSizeTableOf sbSize).sizes i < size + 16 ∨
          2 * idx2classIn (initSizeTableOf sbSize).sizes i < 3 * size) := by
  have hsound := initSizeTableOf_spec hdvd hpos hlt
  exact ⟨hsound, hsound.isSizeTable.indexed, fun size => hsound.rounded⟩

/-- Superblocks of four kilobytes, for which the largest class is one that is added. -/
theorem init_size_table_sound_added :
    (initSizeTableOf 4096).maxBlockSize = 1984 ∧ Indexed (initSizeTableOf 4096).sizes := by
  obtain ⟨-, hindexed, -⟩ := init_size_table_sound (show 32 ∣ 4096 by decide) (by decide)
    (by decide)
  exact ⟨by decide +kernel, hindexed⟩

/-! ### The stores, one by one -/

/-- The globals that `init_size_table` writes. -/
inductive Global where
  | sizeTable (idx : ℕ)
  | numSizeBins
  | maxBlockSize
  | sizeTableInitialized
  deriving DecidableEq, Repr

/-- The main loop of `init_size_table`, as the stores it makes, with the index and the class
it ends with. -/
def fillWrites (halfSb : ℕ) : ℕ → ℕ → ℕ → List (Global × ℕ) × ℕ × ℕ
  | 0, idx, sz => ([(.sizeTable idx, sz)], idx, sz)
  | fuel + 1, idx, sz =>
    let newSz := nextClass sz
    if halfSb < newSz then ([(.sizeTable idx, sz)], idx, sz)
    else
      let (writes, last) := fillWrites halfSb fuel (idx + 1) newSz
      ((.sizeTable idx, sz) :: writes, last)

/-- The stores of `init_size_table` in program order, before that of
`size_table_initialized`. Whatever else it reads and writes are locals. -/
def initWrites (sbSize : ℕ) : List (Global × ℕ) :=
  let halfSb := (sbSize - sizeofSuperblockHeader) / 2
  let (writes, idx, sz) := fillWrites halfSb maxNumBins 0 minBlockSize
  let (writes, idx, sz) :=
    if sz < halfSb * 4 / 5 then (writes ++ [(.sizeTable (idx + 1), halfSb)], idx + 1, halfSb)
    else (writes, idx, sz)
  writes ++ [(.numSizeBins, idx + 1), (.maxBlockSize, sz)]

/-- The stores of a table, from an index on. -/
def entries (idx : ℕ) (sizes : List ℕ) : List (Global × ℕ) :=
  (sizes.zipIdx idx).map fun c => (.sizeTable c.2, c.1)

/-- The loop stores the table, entry by entry. -/
theorem fillWrites_eq (halfSb fuel idx sz : ℕ) : ∃ sizes last,
    (fillTable halfSb fuel sz).1 = sizes ∧ sizes.getLast? = some last ∧
    fillWrites halfSb fuel idx sz = (entries idx sizes, idx + sizes.length - 1, last) := by
  induction fuel generalizing idx sz with
  | zero => exact ⟨[sz], sz, rfl, rfl, rfl⟩
  | succ fuel ih =>
    rw [fillTable, fillWrites]
    by_cases hnew : halfSb < nextClass sz
    · exact ⟨[sz], sz, by simp only [if_pos hnew], rfl, by simp only [if_pos hnew]; rfl⟩
    · obtain ⟨sizes, last, hsizes, hlast, hwrites⟩ := ih (idx + 1) (nextClass sz)
      refine ⟨sz :: sizes, last, by simp only [if_neg hnew, hsizes], ?_, ?_⟩
      · rw [List.getLast?_cons, hlast]
        rfl
      · have hpos := List.length_pos_of_mem (List.mem_of_getLast? hlast)
        simp only [if_neg hnew, hwrites, List.length_cons]
        rw [show idx + 1 + sizes.length - 1 = idx + (sizes.length + 1) - 1 by omega]
        rfl

/-- **The stores of `init_size_table`** are the entries of the table that it leaves, their
number and the largest of them. -/
theorem initWrites_eq (sbSize : ℕ) : initWrites sbSize =
    entries 0 (initSizeTableOf sbSize).sizes ++
      [(.numSizeBins, (initSizeTableOf sbSize).sizes.length),
        (.maxBlockSize, (initSizeTableOf sbSize).maxBlockSize)] := by
  obtain ⟨sizes, last, hsizes, hlast, hwrites⟩ :=
    fillWrites_eq ((sbSize - sizeofSuperblockHeader) / 2) maxNumBins 0 minBlockSize
  have hpos := List.length_pos_of_mem (List.mem_of_getLast? hlast)
  cases hfill : fillTable ((sbSize - sizeofSuperblockHeader) / 2) maxNumBins minBlockSize with
  | mk sizes' failed =>
    obtain rfl : sizes' = sizes := by rw [← hsizes, hfill]
    simp only [initWrites, initSizeTableOf, hwrites, hfill, hlast, Option.getD_some]
    split
    · rw [entries, entries, List.zipIdx_append, List.map_append, List.length_append,
        show 0 + sizes'.length - 1 + 1 = 0 + sizes'.length by omega]
      simp
    · rw [show 0 + sizes'.length - 1 + 1 = sizes'.length by omega]

/-- **What is stored, and where.** -/
theorem mem_initWrites {sbSize : ℕ} {w : Global × ℕ} : w ∈ initWrites sbSize ↔
    (∃ k, w.1 = .sizeTable k ∧ (initSizeTableOf sbSize).sizes[k]? = some w.2) ∨
      w = (.numSizeBins, (initSizeTableOf sbSize).sizes.length) ∨
      w = (.maxBlockSize, (initSizeTableOf sbSize).maxBlockSize) := by
  have hentries : w ∈ entries 0 (initSizeTableOf sbSize).sizes ↔
      ∃ k, w.1 = .sizeTable k ∧ (initSizeTableOf sbSize).sizes[k]? = some w.2 := by
    constructor
    · intro h
      obtain ⟨⟨c, k⟩, hk, rfl⟩ := List.mem_map.mp h
      exact ⟨k, rfl, List.mk_mem_zipIdx_iff_getElem?.mp hk⟩
    · rintro ⟨k, hk, hget⟩
      exact List.mem_map.mpr ⟨(w.2, k), List.mk_mem_zipIdx_iff_getElem?.mpr hget,
        Prod.ext hk.symm rfl⟩
  rw [initWrites_eq, List.mem_append, hentries, List.mem_cons, List.mem_singleton]

/-- **`init_size_table` as several threads may run it**: what it stores depends on nothing
that is shared, no entry of the table is stored twice, and `size_table_initialized` comes
last. -/
def initSetup (sbSize : ℕ) : SharedInit.Setup Global ℕ where
  body := initWrites sbSize
  flag := .sizeTableInitialized
  set := 1
  consistent w hw w' hw' heq := by
    rcases mem_initWrites.mp hw with ⟨k, hk, hget⟩ | rfl | rfl <;>
      rcases mem_initWrites.mp hw' with ⟨k', hk', hget'⟩ | rfl | rfl
    · obtain rfl := Global.sizeTable.inj (hk.symm.trans (heq.trans hk'))
      exact Option.some.inj (hget.symm.trans hget')
    all_goals simp_all
  flag_last w hw := by
    rcases mem_initWrites.mp hw with ⟨k, hk, -⟩ | rfl | rfl
    · rw [hk]
      nofun
    · nofun
    · nofun

/-- `size2idx` of a thread that reads the globals from memory. -/
def size2idxFrom (mem : Global → ℕ) (size : ℕ) : Option ℕ :=
  BinarySearch.search (fun s => some (decide (mem (.sizeTable s) < size))) (mem .numSizeBins)

/-- **The globals are those of the finished table**: what `malloc`, `size2idx` and `idx2class`
read is what they rely on, and the rest of the array is untouched. -/
structure TableReady (mem : Global → ℕ) : Prop where
  maxBlockSize : mem .maxBlockSize = maxBlockSize
  idx2class : ∀ idx, mem (.sizeTable idx) = idx2class idx
  size2idx : ∀ size, size2idxFrom mem size = size2idx size

/-- **Every store has been made.** -/
theorem tableReady {T : Type} {s : SharedInit.System T Global ℕ}
    (h : SharedInit.Inv (initSetup superblockSize) (fun _ => 0) s)
    (hcomplete : (initSetup superblockSize).Complete s.mem) : TableReady s.mem := by
  have hstored : ∀ w ∈ initWrites superblockSize, s.mem w.1 = w.2 := fun w hw =>
    hcomplete w (List.mem_append_left _ hw)
  have hnum : s.mem .numSizeBins = sizeTable.length :=
    hstored _ (mem_initWrites.mpr (Or.inr (Or.inl rfl)))
  have hentry : ∀ idx, s.mem (.sizeTable idx) = idx2class idx := by
    intro idx
    cases hget : sizeTable[idx]? with
    | some c =>
      rw [idx2class, List.getD_eq_getElem?_getD, hget]
      exact hstored (.sizeTable idx, c) (mem_initWrites.mpr (Or.inl ⟨idx, rfl, hget⟩))
    | none =>
      -- Nobody has written there.
      rw [idx2class, List.getD_eq_getElem?_getD, hget]
      refine h.elsewhere _ fun w hw heq => ?_
      rcases SharedInit.Setup.mem_writes.mp hw with hw | rfl
      · have hw : w ∈ initWrites superblockSize := hw
        rcases mem_initWrites.mp hw with ⟨k, hk, hgetk⟩ | rfl | rfl
        · obtain rfl := Global.sizeTable.inj (hk.symm.trans heq)
          exact absurd (hgetk.symm.trans hget) (Option.some_ne_none _)
        · cases heq
        · cases heq
      · cases heq
  refine ⟨hstored _ (mem_initWrites.mpr (Or.inr (Or.inr rfl))), hentry, fun size => ?_⟩
  rw [size2idxFrom, hnum, size2idx_eq]
  refine BinarySearch.search_eq (fun s hs => ?_) List.findIdx_le_length
  rw [hentry, idx2class_of_lt hs]
  exact congrArg some (decide_eq_decide.mpr (getElem_lt_iff_lt_findIdx sizeTable_sorted hs))

/-- **No thread sees an unfinished table**: whatever the interleaving of any number of threads
that check `size_table_initialized` and run `init_size_table`, once one of them has got past
the check, by reading that it is set or by running `init_size_table` to its end, every global
has its final value, for all of them, and whatever the others still store. -/
theorem size_table_shared {T : Type} [DecidableEq T] {events : List (SharedInit.Event T)}
    {s : SharedInit.System T Global ℕ}
    (hrun : Trace.run (SharedInit.step (initSetup superblockSize)) ⟨fun _ => 0, fun _ => .start⟩
      events = some s) (hpast : ∃ t, s.point t = .past) : TableReady s.mem := by
  have hinv := SharedInit.inv_of_run (by nofun) hrun
  exact tableReady hinv (hinv.complete (Or.inl hpast))

/-- One thread has made three stores when another starts, which is done first. -/
theorem size_table_shared_overtaken : ∃ s,
    Trace.run (SharedInit.step (initSetup superblockSize)) ⟨fun _ => 0, fun _ => .start⟩
      (.look false :: List.replicate 3 (.write false) ++
        .look true :: List.replicate 27 (.write true)) = some s ∧
    s.point false = .writing 3 ∧ TableReady s.mem := by
  have hpoints : (Trace.run (SharedInit.step (initSetup superblockSize))
      ⟨fun _ => 0, fun _ => .start⟩ (.look false :: List.replicate 3 (.write false) ++
        .look true :: List.replicate 27 (.write true))).map (fun s =>
          (s.point false, s.point true)) = some (.writing 3, .past) := by
    decide +kernel
  obtain ⟨s, hrun, hs⟩ := Option.map_eq_some_iff.mp hpoints
  obtain ⟨hfalse, htrue⟩ := Prod.mk.inj hs
  exact ⟨s, hrun, hfalse, size_table_shared hrun ⟨true, htrue⟩⟩

end MyMalloc
