import Mathlib.Data.List.Basic
import Mathlib.Tactic.Ring

/-!
# Byte-addressed memory

A memory is a total function from addresses to bytes
(`ByteMemory.Mem`). This file has the accesses a C program makes of it: copying
a block of bytes in and out (`ByteMemory.store`, `ByteMemory.load`), filling a
range with one byte (`ByteMemory.fill`), and reading and writing an unsigned
integer stored in little-endian order (`ByteMemory.storeWord`,
`ByteMemory.loadWord`).

The facts about them are of two kinds: a read returns what the last write put
there (`ByteMemory.loadWord_storeWord`), and a read only depends on the bytes of
the range it reads (`ByteMemory.load_congr`, `ByteMemory.loadWord_congr`), which
every write outside that range keeps (`ByteMemory.store_outside`).
-/

namespace ByteMemory

/-- A memory: a byte at every address. -/
abbrev Mem := ℕ → UInt8

/-! ### Blocks of bytes -/

/-- The `n` bytes from address `a` on. -/
def load (m : Mem) (a n : ℕ) : List UInt8 := (List.range n).map fun i => m (a + i)

/-- The memory with the bytes `bs` written from address `a` on. -/
def store (m : Mem) (a : ℕ) (bs : List UInt8) : Mem := fun i =>
  if a ≤ i ∧ i < a + bs.length then bs.getD (i - a) 0 else m i

/-- The memory with `n` bytes from address `a` on set to `b`. -/
def fill (m : Mem) (a n : ℕ) (b : UInt8) : Mem := fun i => if a ≤ i ∧ i < a + n then b else m i

variable {m m' : Mem} {a n i : ℕ} {bs : List UInt8}

@[simp] theorem length_load : (load m a n).length = n := by simp [load]

theorem store_outside (h : i < a ∨ a + bs.length ≤ i) : store m a bs i = m i :=
  if_neg (by omega)

theorem store_of_mem (h : i < bs.length) : store m a bs (a + i) = bs.getD i 0 := by
  rw [store, if_pos (by omega), Nat.add_sub_cancel_left]

theorem fill_outside {b : UInt8} (h : i < a ∨ a + n ≤ i) : fill m a n b i = m i :=
  if_neg (by omega)

theorem fill_of_mem {b : UInt8} (h : a ≤ i) (h' : i < a + n) : fill m a n b i = b :=
  if_pos ⟨h, h'⟩

/-- A read only depends on the bytes of the range it reads. -/
theorem load_congr (h : ∀ i, a ≤ i → i < a + n → m' i = m i) : load m' a n = load m a n := by
  refine List.map_congr_left fun i hi => h _ (by omega) ?_
  have := List.mem_range.mp hi
  omega

/-- **A block read where it was written is the block written.** -/
theorem load_store (m : Mem) (a : ℕ) (bs : List UInt8) :
    load (store m a bs) a bs.length = bs := by
  refine List.ext_getElem (by simp) fun i h _ => ?_
  have hi : i < bs.length := by simpa using h
  simp [load, store_of_mem hi, hi]

/-- Reading what was filled. -/
theorem load_fill (m : Mem) (a n : ℕ) (b : UInt8) :
    load (fill m a n b) a n = List.replicate n b := by
  refine List.eq_replicate_iff.mpr ⟨length_load, fun x hx => ?_⟩
  obtain ⟨i, hi, rfl⟩ := List.mem_map.mp hx
  have := List.mem_range.mp hi
  exact fill_of_mem (by omega) (by omega)

/-- The beginning of a block that is read. -/
theorem take_load (m : Mem) (a n k : ℕ) : (load m a n).take k = load m a (min k n) := by
  rw [load, ← List.map_take, List.take_range, load]

theorem getElem?_load (m : Mem) (a n i : ℕ) :
    (load m a n)[i]? = if i < n then some (m (a + i)) else none := by
  rw [load, List.getElem?_map]
  by_cases hi : i < n <;> simp [hi]

/-- **A block that is written in part**: what is before and behind stays. -/
theorem load_store_within {off : ℕ} (h : off + bs.length ≤ n) :
    load (store m (a + off) bs) a n =
      (load m a n).take off ++ bs ++ (load m a n).drop (off + bs.length) := by
  have htake : ((load m a n).take off).length = off := by
    rw [List.length_take, length_load]
    omega
  refine List.ext_getElem? fun i => ?_
  rw [getElem?_load]
  rcases Nat.lt_or_ge i off with h₁ | h₁
  · rw [List.append_assoc, List.getElem?_append_left (by omega), List.getElem?_take, if_pos h₁,
      getElem?_load, store_outside (by omega)]
  rcases Nat.lt_or_ge i (off + bs.length) with h₂ | h₂
  · rw [List.append_assoc, List.getElem?_append_right (by omega), htake,
      List.getElem?_append_left (by omega), if_pos (by omega),
      show a + i = a + off + (i - off) by omega, store_of_mem (by omega), List.getD,
      List.getElem?_eq_getElem (by omega)]
    rfl
  · have hlen : ((load m a n).take off ++ bs).length = off + bs.length := by
      rw [List.length_append, htake]
    rw [List.getElem?_append_right (by omega), hlen, List.getElem?_drop,
      Nat.add_sub_cancel' h₂, getElem?_load, store_outside (by omega)]

/-- A byte of a block that is read. -/
theorem getD_load (h : i < n) : (load m a n).getD i 0 = m (a + i) := by
  simp [load, h]

/-- **A copied byte** is the byte of the source. -/
theorem store_load_of_mem {b : ℕ} (h : i < n) : store m b (load m' a n) (b + i) = m' (a + i) := by
  rw [store_of_mem (by rwa [length_load]), getD_load h]

/-- A copy writes its destination only. -/
theorem store_load_outside {b : ℕ} (h : i < b ∨ b + n ≤ i) : store m b (load m' a n) i = m i :=
  store_outside (by rwa [length_load])

/-! ### Little-endian words -/

/-- The number a list of bytes spells, least significant byte first. -/
def ofBytes : List UInt8 → ℕ
  | [] => 0
  | b :: bs => b.toNat + 256 * ofBytes bs

/-- The `w` least significant bytes of a number, least significant first. -/
def toBytes : ℕ → ℕ → List UInt8
  | 0, _ => []
  | w + 1, v => UInt8.ofNat (v % 256) :: toBytes w (v / 256)

@[simp] theorem length_toBytes (w v : ℕ) : (toBytes w v).length = w := by
  induction w generalizing v with
  | zero => rfl
  | succ w ih => simp [toBytes, ih]

/-- **The round trip of a word through its bytes** keeps it modulo the width. -/
theorem ofBytes_toBytes (w v : ℕ) : ofBytes (toBytes w v) = v % 256 ^ w := by
  induction w generalizing v with
  | zero => simp [toBytes, ofBytes, Nat.mod_one]
  | succ w ih =>
    have hb : (UInt8.ofNat (v % 256)).toNat = v % 256 := by simp
    rw [toBytes, ofBytes, ih, hb, pow_succ, Nat.mul_comm (256 ^ w), Nat.mod_mul]

/-- The unsigned `w`-byte integer stored at address `a`. -/
def loadWord (w : ℕ) (m : Mem) (a : ℕ) : ℕ := ofBytes (load m a w)

/-- The memory with the unsigned `w`-byte integer `v` stored at address `a`. -/
def storeWord (w : ℕ) (m : Mem) (a v : ℕ) : Mem := store m a (toBytes w v)

theorem loadWord_congr {w : ℕ} (h : ∀ i, a ≤ i → i < a + w → m' i = m i) :
    loadWord w m' a = loadWord w m a := by
  rw [loadWord, loadWord, load_congr h]

/-- The least significant byte of a word is the first one. -/
theorem loadWord_mod {w : ℕ} (hw : 0 < w) : loadWord w m a % 256 = (m a).toNat := by
  obtain ⟨w, rfl⟩ := Nat.exists_eq_succ_of_ne_zero (Nat.ne_of_gt hw)
  have hlt : (m a).toNat < 256 := UInt8.toNat_lt _
  simp only [loadWord, load, List.range_succ_eq_map, List.map_cons, ofBytes, Nat.add_zero,
    Nat.add_mul_mod_self_left]
  omega

/-- **A word read where it was written is the word written**, as far as it fits. -/
theorem loadWord_storeWord (w : ℕ) (m : Mem) (a v : ℕ) :
    loadWord w (storeWord w m a v) a = v % 256 ^ w := by
  have h := load_store m a (toBytes w v)
  rw [length_toBytes] at h
  rw [loadWord, storeWord, h, ofBytes_toBytes]

theorem storeWord_outside {w v : ℕ} (h : i < a ∨ a + w ≤ i) : storeWord w m a v i = m i :=
  store_outside (by rwa [length_toBytes])

/-- A word stored elsewhere does not change the word read. -/
theorem loadWord_storeWord_of_disjoint {w w' b v : ℕ} (h : a + w ≤ b ∨ b + w' ≤ a) :
    loadWord w (storeWord w' m b v) a = loadWord w m a :=
  loadWord_congr fun i hi hi' => storeWord_outside (by omega)

end ByteMemory
