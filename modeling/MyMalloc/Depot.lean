import MyMalloc.BinRefinement

/-!
# The depot

What the allocator is, without pointers: superblocks that stand in lists or are
in somebody's hands, and live blocks in them. A `MyMalloc.Depot` keeps the data
of the allocator, the lists as lists, the superblocks *in transit* – taken out of
a list and not filed again yet – and the live blocks with their requested sizes.

`MyMalloc.Depot.Inv` is the invariant all results about whole executions rest
on. A superblock on a list says so in its header (`MyMalloc.Fits`): this is what
lets the allocator find the list of a superblock from its header. A superblock
in transit need not fit anywhere, and that is the only state in which its header
may change (`MyMalloc.Depot.Inv.rework`). Nothing asks that every superblock is
on a list; an *empty* one may get lost without harm to the live blocks.
-/

namespace MyMalloc

open LinkedList Placement AddressSpace ByteMemory

/-! ### Live blocks -/

/-- The live blocks of one superblock. -/
def liveIn (live : List (ℕ × ℕ)) (x : ℕ) : List ℕ :=
  (live.map Prod.fst).filter fun p => superblockOf p = x

section LiveIn

variable {live : List (ℕ × ℕ)} {x y p n : ℕ}

theorem mem_liveIn : p ∈ liveIn live x ↔ (∃ n, (p, n) ∈ live) ∧ superblockOf p = x := by
  simp [liveIn]

theorem liveIn_cons_self (h : superblockOf p = x) :
    liveIn ((p, n) :: live) x = p :: liveIn live x := by
  simp [liveIn, h]

theorem liveIn_cons_of_ne (h : superblockOf p ≠ x) :
    liveIn ((p, n) :: live) x = liveIn live x := by
  simp [liveIn, h]

/-- Striking a block from the live blocks, seen from its superblock. -/
theorem liveIn_filter_self (hnd : (liveIn live x).Nodup) :
    liveIn (live.filter fun b => b.1 ≠ p) x = (liveIn live x).erase p := by
  rw [hnd.erase_eq_filter]
  simp only [liveIn, List.filter_map, List.filter_filter, Function.comp_def]
  congr 1
  refine List.filter_congr fun b _ => ?_
  by_cases hb : b.1 = p <;> simp [hb]

/-- Striking a block from the live blocks, seen from another superblock. -/
theorem liveIn_filter_of_ne (h : superblockOf p ≠ x) :
    liveIn (live.filter fun b => b.1 ≠ p) x = liveIn live x := by
  simp only [liveIn, List.filter_map, List.filter_filter, Function.comp_def]
  congr 1
  refine List.filter_congr fun b _ => ?_
  by_cases hb : superblockOf b.1 = x
  · have hne : b.1 ≠ p := by
      rintro rfl
      exact h hb
    simp [hb, hne]
  · simp [hb]

end LiveIn

/-! ### Superblocks -/

/-- **The place of a superblock** in the address space: aligned, in user space,
mapped. -/
structure Placed (mapped : List Region) (x : ℕ) : Prop where
  dvd : superblockSize ∣ x
  pos : 0 < x
  le : x + superblockSize ≤ userSpace
  covers : ∀ a, x ≤ a → a < x + superblockSize → Covers mapped a

theorem Placed.isSuperblock {mapped : List Region} {x : ℕ} (h : Placed mapped x) :
    IsSuperblock x := by
  have hle := h.le
  refine ⟨h.dvd, h.pos, ?_⟩
  rw [superblockSize_eq, userSpace_eq] at *
  omega

/-- Different superblocks do not overlap. -/
theorem Placed.disjoint {mapped mapped' : List Region} {x y : ℕ} (hx : Placed mapped x)
    (hy : Placed mapped' y) (hne : x ≠ y) :
    x + superblockSize ≤ y ∨ y + superblockSize ≤ x := by
  obtain ⟨k, hk⟩ := hx.dvd
  obtain ⟨k', hk'⟩ := hy.dvd
  rw [superblockSize_eq] at *
  omega

/-- **What a superblock holds**: it is carved into blocks of one of the size
classes, its allocator is sound, and it bears the magic number. -/
structure Carved (header : SuperblockHeader) (mem : Mem) (live : List ℕ) (x : ℕ) : Prop where
  magic : header.magic = headerMagic
  isClass : ∃ b < numSizeBins, header.blockSize = idx2class b
  sound : ∃ free, Sound x header mem live free

namespace Carved

variable {header : SuperblockHeader} {mem mem' : Mem} {live : List ℕ} {x : ℕ}

theorem counted (h : Carved header mem live x) : Counted header := by
  obtain ⟨free, hs⟩ := h.sound
  have htwo := hs.two_le_total
  have hlt := hs.total_lt
  have hnum := hs.numFree_add_length
  exact ⟨by omega, by omega, by omega⟩

theorem nodup (h : Carved header mem live x) : live.Nodup := by
  obtain ⟨free, hs⟩ := h.sound
  exact (List.nodup_append.mp hs.nodup).1

/-- A superblock with as many free blocks as blocks has no live block. -/
theorem numFree_eq_iff (h : Carved header mem live x) :
    header.numFreeBlocks = header.totalBlocks ↔ live = [] := by
  obtain ⟨free, hs⟩ := h.sound
  rw [← hs.isEmpty_iff, isSuperblockEmpty, beq_iff_eq]

theorem usedBytes_eq (h : Carved header mem live x) :
    usedBytes header = (live.length * header.blockSize : ℕ) := by
  obtain ⟨free, hs⟩ := h.sound
  exact hs.usedBytes_eq

/-- A live block lies in the buffer of its superblock. -/
theorem live_mem (h : Carved header mem live x) (hx : IsSuperblock x) {p : ℕ} (hp : p ∈ live) :
    x + sizeofSuperblockHeader ≤ p ∧ p + header.blockSize ≤ x + superblockSize ∧
      16 ∣ p ∧ superblockOf p = x := by
  obtain ⟨free, hs⟩ := h.sound
  have hmem := List.mem_append_left free hp
  obtain ⟨hlo, hhi, hdvd⟩ := hs.mem_buffer hx hmem
  exact ⟨hlo, hhi, hdvd, hs.superblockOf_eq hx hmem⟩

theorem set_owner (h : Carved header mem live x) (owner : Option HeapId) :
    Carved { header with owner := owner } mem live x := by
  obtain ⟨free, hs⟩ := h.sound
  exact ⟨h.magic, h.isClass, free, hs.set_owner owner⟩

/-- Memory outside the superblock does not matter. -/
theorem congr_mem (h : Carved header mem live x) (hx : IsSuperblock x)
    (hmem : ∀ i, x ≤ i → i < x + superblockSize → mem' i = mem i) :
    Carved header mem' live x := by
  obtain ⟨free, hs⟩ := h.sound
  exact ⟨h.magic, h.isClass, free, hs.congr_mem_outside hx hmem⟩

end Carved

/-- **What the header of a superblock on a list says.** In a bin, the heap, the
bin and the class are the ones computed from the header, and there is a live
block; on a recycle list there is none. -/
def Fits (header : SuperblockHeader) : Place → Prop
  | .bin bm e => header.owner = some bm.1 ∧ bm.2 < numSizeBins ∧
      header.blockSize = idx2class bm.2 ∧ eidxOf header = e ∧
      header.numFreeBlocks ≠ header.totalBlocks
  | .recycle heap => header.owner = some heap ∧ header.numFreeBlocks = header.totalBlocks

/-! ### The depot -/

/-- **The depot**: the data, the lists, the superblocks in transit, and the live
blocks with their requested sizes. -/
structure Depot where
  core : Core
  lists : Lists
  transit : List ℕ
  live : List (ℕ × ℕ)

namespace Depot

/-- **The invariant.** -/
structure Inv (d : Depot) : Prop where
  distinct : Distinct d.lists
  transit_nodup : d.transit.Nodup
  transit_nowhere : ∀ x ∈ d.transit, Nowhere d.lists x
  transit_known : ∀ x ∈ d.transit, x ∈ d.core.superblocks
  lists_known : ∀ p, ∀ x ∈ d.lists p, x ∈ d.core.superblocks
  superblocks_nodup : d.core.superblocks.Nodup
  placed : ∀ x ∈ d.core.superblocks, Placed d.core.mapped x
  carved : ∀ x ∈ d.core.superblocks, Carved (d.core.header x) d.core.mem (liveIn d.live x) x
  fits : ∀ p, ∀ x ∈ d.lists p, Fits (d.core.header x) p
  live_known : ∀ b ∈ d.live, superblockOf b.1 ∈ d.core.superblocks ∧
    b.2 ≤ (d.core.header (superblockOf b.1)).blockSize
  /-- A superblock with a live block is in transit or in a bin. -/
  covered : ∀ x ∈ d.core.superblocks, liveIn d.live x ≠ [] →
    x ∈ d.transit ∨ ∃ bm e, x ∈ d.lists (.bin bm e)

/-- A state that carries the data of the depot and lays out its lists. -/
structure Refines (s : State) (d : Depot) : Prop where
  core : s.toCore = d.core
  represents : Represents s d.lists

/-- The depot with other data. -/
def setCore (d : Depot) (c : Core) : Depot := { d with core := c }

/-- A superblock is taken out of a list. -/
def take (d : Depot) (p : Place) (x : ℕ) : Depot :=
  { d with lists := Placement.take d.lists p x, transit := x :: d.transit }

/-- A superblock is filed. -/
def put (d : Depot) (p : Place) (x : ℕ) : Depot :=
  { d with lists := push d.lists p x, transit := d.transit.erase x }

section

variable {d d' : Depot} {x : ℕ} {p : Place}

theorem Inv.inUserSpace (hd : d.Inv) : InUserSpace d.lists := by
  intro p x hx
  have hp := hd.placed x (hd.lists_known p x hx)
  have hle := hp.le
  refine ⟨hp.dvd, ?_⟩
  rw [superblockSize_eq] at hle
  omega

theorem Inv.isSuperblock (hd : d.Inv) (hx : x ∈ d.core.superblocks) : IsSuperblock x :=
  (hd.placed x hx).isSuperblock

/-- A live block is one of the live blocks of its superblock. -/
theorem Inv.mem_liveIn {b : ℕ × ℕ} (hb : b ∈ d.live) : b.1 ∈ liveIn d.live (superblockOf b.1) :=
  MyMalloc.mem_liveIn.mpr ⟨⟨b.2, hb⟩, rfl⟩

/-- **Only some of the data matters**: neither the statistics nor the failed
assertions do. -/
theorem Inv.congr_core (hd : d.Inv) {c : Core} (hheader : c.header = d.core.header)
    (hmem : c.mem = d.core.mem) (hsb : c.superblocks = d.core.superblocks)
    (hmapped : c.mapped = d.core.mapped) : (d.setCore c).Inv := by
  obtain ⟨usage, header, mem, superblocks, mapped, failed⟩ := c
  simp only at hheader hmem hsb hmapped
  subst hheader hmem hsb hmapped
  exact { hd with }

/-! ### Taking out and filing -/

theorem Inv.take (hd : d.Inv) (hx : x ∈ d.lists p) : (d.take p x).Inv := by
  have hmem : ∀ {q y}, y ∈ Placement.take d.lists p x q ↔ y ∈ d.lists q ∧ y ≠ x :=
    mem_take hd.distinct hx
  refine { hd with
    distinct := hd.distinct.take
    transit_nodup := List.nodup_cons.mpr ⟨fun hc => hd.transit_nowhere x hc p hx, hd.transit_nodup⟩
    transit_nowhere := fun y hy => ?_
    transit_known := fun y hy => ?_
    lists_known := fun q y hy => hd.lists_known q y (hmem.mp hy).1
    fits := fun q y hy => hd.fits q y (hmem.mp hy).1
    covered := fun y hy hlive => ?_ }
  · rcases List.mem_cons.mp hy with rfl | hy
    · exact nowhere_take hd.distinct hx
    · exact fun q hq => hd.transit_nowhere y hy q (hmem.mp hq).1
  · rcases List.mem_cons.mp hy with rfl | hy
    · exact hd.lists_known p y hx
    · exact hd.transit_known y hy
  · by_cases hyx : y = x
    · exact Or.inl (hyx ▸ List.mem_cons_self ..)
    · rcases hd.covered y hy hlive with h | ⟨bm, e, h⟩
      · exact Or.inl (List.mem_cons_of_mem _ h)
      · exact Or.inr ⟨bm, e, hmem.mpr ⟨h, hyx⟩⟩

theorem Inv.put (hd : d.Inv) (hx : x ∈ d.transit) (hfits : Fits (d.core.header x) p) :
    (d.put p x).Inv := by
  have hsub : ∀ y ∈ d.transit.erase x, y ∈ d.transit := fun y hy => List.mem_of_mem_erase hy
  refine { hd with
    distinct := hd.distinct.push (hd.transit_nowhere x hx)
    transit_nodup := hd.transit_nodup.erase x
    transit_nowhere := fun y hy q hq => ?_
    transit_known := fun y hy => hd.transit_known y (hsub y hy)
    lists_known := fun q y hy => ?_
    fits := fun q y hy => ?_
    covered := fun y hy hlive => ?_ }
  · rcases mem_push.mp hq with ⟨-, rfl⟩ | hq
    · exact (hd.transit_nodup.mem_erase_iff.mp hy).1 rfl
    · exact hd.transit_nowhere y (hsub y hy) q hq
  · rcases mem_push.mp hy with ⟨-, rfl⟩ | hy
    · exact hd.transit_known y hx
    · exact hd.lists_known q y hy
  · rcases mem_push.mp hy with ⟨rfl, rfl⟩ | hy
    · exact hfits
    · exact hd.fits q y hy
  · by_cases hyx : y = x
    · subst hyx
      -- A superblock with a live block does not fit a recycle list.
      cases p with
      | bin bm e => exact Or.inr ⟨bm, e, mem_push.mpr (Or.inl ⟨rfl, rfl⟩)⟩
      | recycle heap => exact absurd ((hd.carved y hy).numFree_eq_iff.mp hfits.2) hlive
    · rcases hd.covered y hy hlive with h | ⟨bm, e, h⟩
      · exact Or.inl ((List.mem_erase_of_ne hyx).mpr h)
      · exact Or.inr ⟨bm, e, mem_push.mpr (Or.inr h)⟩

/-! ### Working on a superblock in transit -/

/-- **A superblock in transit may be reworked**: its header, its memory and its
live blocks change together, and nothing else does. -/
theorem Inv.rework (hd : d.Inv) (hx : x ∈ d.transit) (hlists : d'.lists = d.lists)
    (htransit : d'.transit = d.transit) (hsb : d'.core.superblocks = d.core.superblocks)
    (hmapped : d'.core.mapped = d.core.mapped)
    (hheader : ∀ y, y ≠ x → d'.core.header y = d.core.header y)
    (hmem : ∀ i, i < x ∨ x + superblockSize ≤ i → d'.core.mem i = d.core.mem i)
    (hlive : ∀ y, y ≠ x → liveIn d'.live y = liveIn d.live y)
    (hsize : ∀ b ∈ d'.live, superblockOf b.1 = x ∧ b.2 ≤ (d'.core.header x).blockSize ∨
      superblockOf b.1 ≠ x ∧ b ∈ d.live)
    (hcarved : Carved (d'.core.header x) d'.core.mem (liveIn d'.live x) x) : d'.Inv := by
  have hxsb := hd.transit_known x hx
  obtain ⟨core', lists', transit', live'⟩ := d'
  simp only at hlists htransit hsb hmapped hheader hmem hlive hsize hcarved
  subst hlists htransit
  refine {
    distinct := hd.distinct
    transit_nodup := hd.transit_nodup
    transit_nowhere := hd.transit_nowhere
    transit_known := fun y hy => hsb ▸ hd.transit_known y hy
    lists_known := fun q y hy => hsb ▸ hd.lists_known q y hy
    superblocks_nodup := hsb ▸ hd.superblocks_nodup
    placed := fun y hy => hmapped ▸ hd.placed y (hsb ▸ hy)
    carved := fun y hy => ?_
    fits := fun q y hy => ?_
    live_known := fun b hb => ?_
    covered := fun y hy hne => ?_ }
  · by_cases hyx : y = x
    · exact hyx ▸ hcarved
    · have hy : y ∈ d.core.superblocks := hsb ▸ hy
      have hdis := (hd.placed y hy).disjoint (hd.placed x hxsb) hyx
      rw [hheader y hyx, hlive y hyx]
      refine (hd.carved y hy).congr_mem (hd.isSuperblock hy) fun i hi hi' => hmem i ?_
      omega
  · have hyx : y ≠ x := fun hc => hd.transit_nowhere x hx q (hc ▸ hy)
    rw [hheader y hyx]
    exact hd.fits q y hy
  · rcases hsize b hb with ⟨hbx, hle⟩ | ⟨hbx, hb⟩
    · rw [hbx, hsb]
      exact ⟨hxsb, hle⟩
    · rw [hheader _ hbx, hsb]
      exact hd.live_known b hb
  · by_cases hyx : y = x
    · exact Or.inl (hyx ▸ hx)
    · exact hd.covered y (hsb ▸ hy) (hlive y hyx ▸ hne)

end

end Depot

end MyMalloc
