import AmDb.Foundation.PrefixCode
import Mathlib.Data.List.Pairwise

/-! # A memory of bytes

    Little-endian words, what a write changes, and a heap of blocks that an
    allocator adds to.  String objects are laid out with a local buffer, as
    libstdc++ does.  Last, the offsets of fields that follow each other. -/

namespace ByteMemory

open PrefixCode

/-! ## Words -/

/-- The low `w` bytes of `n`, least significant first. -/
def littleEndian (w n : Nat) : List (Fin 256) := (bigEndian w n).reverse

/-- The number a word stands for. -/
def ofLittleEndian (bs : List (Fin 256)) : Nat := ofBigEndian bs.reverse

@[simp] theorem length_littleEndian (w n : Nat) :
    (littleEndian w n).length = w := by
  rw [littleEndian, List.length_reverse, length_bigEndian]

@[simp] theorem ofLittleEndian_littleEndian (w n : Nat) :
    ofLittleEndian (littleEndian w n) = n % 256 ^ w := by
  rw [ofLittleEndian, littleEndian, List.reverse_reverse,
    ofBigEndian_bigEndian]

theorem littleEndian_ofLittleEndian (bs : List (Fin 256)) :
    littleEndian bs.length (ofLittleEndian bs) = bs := by
  rw [littleEndian, ofLittleEndian, ← List.length_reverse,
    bigEndian_ofBigEndian, List.reverse_reverse]

theorem ofLittleEndian_lt (bs : List (Fin 256)) :
    ofLittleEndian bs < 256 ^ bs.length := by
  have h := ofBigEndian_lt bs.reverse
  rwa [List.length_reverse] at h

/-! ## Reading and writing -/

/-- The byte at every address. -/
abbrev Mem := Nat → Fin 256

/-- `n` bytes from address `a` on. -/
def read (m : Mem) (a n : Nat) : List (Fin 256) :=
  (List.range n).map (fun i => m (a + i))

def write (m : Mem) (a : Nat) (bs : List (Fin 256)) : Mem :=
  fun x => if a ≤ x then bs[x - a]?.getD (m x) else m x

section ReadWrite

variable {m m' : Mem} {a b n k : Nat} {bs cs : List (Fin 256)}

@[simp] theorem length_read (m : Mem) (a n : Nat) :
    (read m a n).length = n := by
  simp [read]

theorem getElem?_read {i : Nat} (hi : i < n) :
    (read m a n)[i]? = some (m (a + i)) := by
  simp [read, hi]

theorem mem_read {x : Nat} (hx : a ≤ x) (hx' : x < a + n) :
    m x ∈ read m a n := by
  refine List.mem_iff_getElem?.mpr ⟨x - a, ?_⟩
  rw [getElem?_read (by omega), Nat.add_sub_cancel' hx]

/-- What is read depends on the range only. -/
theorem read_congr (h : ∀ x, a ≤ x → x < a + n → m x = m' x) :
    read m a n = read m' a n := by
  refine List.map_congr_left ?_
  intro i hi
  have := List.mem_range.mp hi
  exact h (a + i) (by omega) (by omega)

/-- A range in two parts. -/
theorem read_add (m : Mem) (a n k : Nat) :
    read m a (n + k) = read m a n ++ read m (a + n) k := by
  simp only [read, List.range_add, List.map_append, List.map_map]
  congr 1
  refine List.map_congr_left ?_
  intro i _
  simp only [Function.comp, Nat.add_assoc]

theorem take_read (h : k ≤ n) : (read m a n).take k = read m a k := by
  obtain ⟨d, rfl⟩ := Nat.exists_eq_add_of_le h
  rw [read_add, List.take_left' (length_read m a k)]

theorem drop_read (m : Mem) (a n k : Nat) :
    (read m a (n + k)).drop n = read m (a + n) k := by
  rw [read_add, List.drop_left' (length_read m a n)]

/-- A write changes nothing outside its range, -/
theorem write_outside {x : Nat} (h : x < a ∨ a + bs.length ≤ x) :
    write m a bs x = m x := by
  rw [write]
  split_ifs with hax
  · rw [List.getElem?_eq_none (by omega), Option.getD_none]
  · rfl

/-- and puts the bytes there. -/
theorem write_inside {i : Nat} (hi : i < bs.length) :
    write m a bs (a + i) = bs[i] := by
  rw [write, if_pos (Nat.le_add_right a i), Nat.add_sub_cancel_left,
    List.getElem?_eq_getElem hi, Option.getD_some]

/-- What was written is read. -/
theorem read_write_self (m : Mem) (a : Nat) (bs : List (Fin 256)) :
    read (write m a bs) a bs.length = bs := by
  refine List.ext_getElem (by simp) ?_
  intro i _ hi
  simp only [read, List.getElem_map, List.getElem_range]
  exact write_inside hi

theorem read_write_outside (h : b + n ≤ a ∨ a + bs.length ≤ b) :
    read (write m a bs) b n = read m b n :=
  read_congr (fun _ _ _ => write_outside (by omega))

/-- Writing two strings, one behind the other. -/
theorem write_append (m : Mem) (a : Nat) (bs cs : List (Fin 256)) :
    write (write m a bs) (a + bs.length) cs = write m a (bs ++ cs) := by
  funext x
  rcases Nat.lt_or_ge x a with hlt | hge
  · rw [write_outside (Or.inl (by omega)), write_outside (Or.inl hlt),
      write_outside (Or.inl hlt)]
  · obtain ⟨i, rfl⟩ := Nat.exists_eq_add_of_le hge
    rcases Nat.lt_or_ge i bs.length with hi | hi
    · rw [write_outside (Or.inl (by omega)), write_inside hi,
        write_inside (by rw [List.length_append]; omega),
        List.getElem_append_left hi]
    · simp only [write, Nat.le_add_right, if_true, Nat.add_sub_cancel_left,
        Nat.add_le_add_iff_left, hi, Nat.add_sub_add_left,
        List.getElem?_append_right hi, List.getElem?_eq_none hi,
        Option.getD_none]

end ReadWrite

/-! ## Blocks -/

/-- A range of addresses. -/
structure Span where
  base : Nat
  size : Nat
  deriving DecidableEq

namespace Span

def stop (s : Span) : Nat := s.base + s.size

/-- Neither range has an address of the other. -/
def Apart (s t : Span) : Prop := s.stop ≤ t.base ∨ t.stop ≤ s.base

def Inside (s t : Span) : Prop := t.base ≤ s.base ∧ s.stop ≤ t.stop

instance (s t : Span) : Decidable (s.Apart t) :=
  inferInstanceAs (Decidable (_ ∨ _))

instance (s t : Span) : Decidable (s.Inside t) :=
  inferInstanceAs (Decidable (_ ∧ _))

variable {s t u : Span} {x : Nat}

theorem Apart.symm (h : s.Apart t) : t.Apart s := Or.symm h

/-- Parts of ranges that are apart are apart. -/
theorem Apart.mono (h : s.Apart t) (hu : u.Inside s) : u.Apart t := by
  obtain ⟨hb, hs⟩ := hu
  rcases h with h | h
  · exact Or.inl (hs.trans h)
  · exact Or.inr (h.trans hb)

/-- Ranges with an address in common are not apart. -/
theorem not_apart_of_mem (hs : s.base ≤ x ∧ x < s.stop)
    (ht : t.base ≤ x ∧ x < t.stop) : ¬ s.Apart t := by
  rintro (h | h) <;> omega

/-- Ranges that are not apart have an address in common. -/
theorem exists_mem_of_not_apart (hs : 0 < s.size) (ht : 0 < t.size)
    (h : ¬ s.Apart t) : ∃ x, (s.base ≤ x ∧ x < s.stop)
      ∧ t.base ≤ x ∧ x < t.stop := by
  rw [Apart, not_or] at h
  simp only [stop] at h ⊢
  exact ⟨max s.base t.base, by omega, by omega⟩

end Span

/-- A memory in which some blocks are allocated. -/
structure Heap where
  bytes       : Mem
  blocks      : List Span
  apart       : blocks.Pairwise Span.Apart
  addressable : ∀ s ∈ blocks, s.stop ≤ 2 ^ 64

/-- A place for another block. -/
def Heap.Fresh (h : Heap) (s : Span) : Prop :=
  s.stop ≤ 2 ^ 64 ∧ ∀ t ∈ h.blocks, s.Apart t

instance (h : Heap) (s : Span) : Decidable (h.Fresh s) :=
  inferInstanceAs (Decidable (_ ∧ _))

/-- A range that lies in one block, or is empty. -/
def Heap.Accessible (h : Heap) (s : Span) : Prop :=
  s.size = 0 ∨ ∃ t ∈ h.blocks, s.Inside t

instance (h : Heap) (s : Span) : Decidable (h.Accessible s) :=
  inferInstanceAs (Decidable (_ ∨ _))

namespace Heap

/-- The heap with one more block and what it contains. -/
def add (h : Heap) (s : Span) (contents : Mem) (hs : h.Fresh s) : Heap where
  bytes := fun x =>
    if s.base ≤ x ∧ x < s.stop then contents x else h.bytes x
  blocks := s :: h.blocks
  apart := List.pairwise_cons.mpr ⟨hs.2, h.apart⟩
  addressable := List.forall_mem_cons.mpr ⟨hs.1, h.addressable⟩

def load (h : Heap) (a n : Nat) : Option (List (Fin 256)) :=
  if h.Accessible ⟨a, n⟩ then some (read h.bytes a n) else none

def store (h : Heap) (a : Nat) (bs : List (Fin 256)) : Option Heap :=
  if h.Accessible ⟨a, bs.length⟩ then
    some { h with bytes := write h.bytes a bs }
  else none

end Heap

/-- Where an allocator puts a block of some size, and what the block contains
    then.  It may refuse. -/
abbrev Allocator := Heap → Nat → Option (Nat × Mem)

/-- A place that is not free counts as a refusal. -/
def Allocator.allocate (alloc : Allocator) (h : Heap) (n : Nat) :
    Option (Nat × Heap) := do
  let (a, contents) ← alloc h n
  if hs : h.Fresh ⟨a, n⟩ then some (a, h.add ⟨a, n⟩ contents hs) else none

/-- One heap after another: its blocks are kept, with their contents outside of
    some ranges. -/
structure Heap.Grows (h h' : Heap) (written : Nat → Prop) : Prop where
  blocks : ∀ s ∈ h.blocks, s ∈ h'.blocks
  bytes  : ∀ s ∈ h.blocks, ∀ x, s.base ≤ x → x < s.stop → ¬ written x →
    h'.bytes x = h.bytes x

/-- No address. -/
def nowhere (_ : Nat) : Prop := False

section Heap

variable {h h' h'' : Heap} {alloc : Allocator} {a n : Nat}
  {bs : List (Fin 256)} {s t : Span} {P Q : Nat → Prop}

theorem Heap.Grows.refl (h : Heap) (P : Nat → Prop) : h.Grows h P :=
  ⟨fun _ hs => hs, fun _ _ _ _ _ _ => rfl⟩

/-- Two steps write what either of them writes. -/
theorem Heap.Grows.trans (h₁ : h.Grows h' P) (h₂ : h'.Grows h'' Q) :
    h.Grows h'' (fun x => P x ∨ Q x) := by
  refine ⟨fun s hs => h₂.blocks s (h₁.blocks s hs), ?_⟩
  intro s hs x hx hx' hP
  rw [h₂.bytes s (h₁.blocks s hs) x hx hx' (fun hq => hP (Or.inr hq)),
    h₁.bytes s hs x hx hx' (fun hp => hP (Or.inl hp))]

theorem Heap.Grows.mono (h₁ : h.Grows h' P) (hPQ : ∀ x, P x → Q x) :
    h.Grows h' Q :=
  ⟨h₁.blocks, fun s hs x hx hx' hq =>
    h₁.bytes s hs x hx hx' (fun hp => hq (hPQ x hp))⟩

/-- What is read from a block keeps, outside of what was written. -/
theorem Heap.Grows.read (hg : h.Grows h' P) (hs : s ∈ h.blocks)
    (ht : (⟨a, n⟩ : Span).Inside s) (hP : ∀ x, a ≤ x → x < a + n → ¬ P x) :
    read h'.bytes a n = read h.bytes a n := by
  refine read_congr ?_
  intro x hax hx
  exact hg.bytes s hs x (ht.1.trans hax) (lt_of_lt_of_le hx ht.2)
    (hP x hax hx)

theorem Heap.accessible_of_mem (hs : s ∈ h.blocks)
    (ht : t.Inside s) : h.Accessible t :=
  Or.inr ⟨s, hs, ht⟩

/-- An address lies in one block only. -/
theorem Heap.block_unique (hs : s ∈ h.blocks) (ht : t ∈ h.blocks) {x : Nat}
    (hxs : s.base ≤ x ∧ x < s.stop) (hxt : t.base ≤ x ∧ x < t.stop) :
    s = t := by
  by_contra hne
  have hsym : Std.Symm Span.Apart := ⟨fun _ _ hst => hst.symm⟩
  exact Span.not_apart_of_mem hxs hxt (h.apart.forall hs ht hne)

/-- A range from the start of a block is accessible when it stays in it. -/
theorem Heap.accessible_base_iff (hs : s ∈ h.blocks) (hpos : 0 < s.size) :
    h.Accessible ⟨s.base, n⟩ ↔ n ≤ s.size := by
  constructor
  · rintro (hzero | ⟨t, ht, hbase, hstop⟩)
    · have hn : n = 0 := hzero
      exact hn ▸ Nat.zero_le _
    · rcases Nat.eq_zero_or_pos n with rfl | hn
      · exact Nat.zero_le _
      · have hbase' : t.base ≤ s.base := hbase
        have hstop' : s.base + n ≤ t.stop := hstop
        have hst : s = t := Heap.block_unique hs ht (x := s.base)
          ⟨Nat.le_refl _, by rw [Span.stop]; omega⟩ ⟨hbase', by omega⟩
        rw [← hst, Span.stop] at hstop'
        omega
  · intro hn
    refine Heap.accessible_of_mem hs ⟨Nat.le_refl _, ?_⟩
    exact Nat.add_le_add_left hn _

theorem Heap.load_eq_some (hacc : h.Accessible ⟨a, n⟩) :
    h.load a n = some (read h.bytes a n) :=
  if_pos hacc

/-- A store writes its bytes, where they can be accessed. -/
theorem Heap.store_eq_some_iff :
    h.store a bs = some h' ↔ h.Accessible ⟨a, bs.length⟩
      ∧ h' = { h with bytes := write h.bytes a bs } := by
  rw [store]
  split_ifs with hacc
  · rw [Option.some.injEq, eq_comm, and_iff_right hacc]
  · simp [hacc]

/-- A write inside a block succeeds. -/
theorem Heap.store_returns (hs : s ∈ h.blocks)
    (hin : (⟨a, bs.length⟩ : Span).Inside s) :
    ∃ h', h.store a bs = some h' ∧ h'.blocks = h.blocks :=
  ⟨_, Heap.store_eq_some_iff.mpr ⟨Heap.accessible_of_mem hs hin, rfl⟩, rfl⟩

/-- A store writes there only. -/
theorem Heap.grows_write (h : Heap) (a : Nat) (bs : List (Fin 256)) :
    h.Grows { h with bytes := write h.bytes a bs }
      (fun x => a ≤ x ∧ x < a + bs.length) := by
  refine ⟨fun s hs => hs, ?_⟩
  intro s _ x _ _ hx
  exact write_outside (by omega)

/-- A new block is apart from the others, and nothing is written. -/
theorem Allocator.allocate_eq_some (ha : alloc.allocate h n = some (a, h')) :
    h.Fresh ⟨a, n⟩ ∧ h'.blocks = ⟨a, n⟩ :: h.blocks
      ∧ h.Grows h' nowhere := by
  obtain ⟨⟨b, contents⟩, -, hb⟩ := Option.bind_eq_some_iff.mp ha
  simp only at hb
  split_ifs at hb with hs
  obtain ⟨rfl, rfl⟩ := Prod.mk.inj (Option.some.inj hb)
  refine ⟨hs, rfl, fun s hs => List.mem_cons_of_mem _ hs, ?_⟩
  intro t ht x hx hx' _
  refine if_neg ?_
  rintro ⟨hbx, hxb⟩
  exact Span.not_apart_of_mem ⟨hbx, hxb⟩ ⟨hx, hx'⟩ (hs.2 t ht)

/-- A write to a block that was free changes nothing that was there. -/
theorem Heap.Grows.of_fresh (hs : h.Fresh s) (hg : h.Grows h'
    (fun x => s.base ≤ x ∧ x < s.stop)) : h.Grows h' nowhere := by
  refine ⟨hg.blocks, ?_⟩
  intro t ht x hx hx' _
  exact hg.bytes t ht x hx hx'
    (fun hxs => Span.not_apart_of_mem hxs ⟨hx, hx'⟩ (hs.2 t ht))

end Heap

/-! ## String objects -/

/-- `sizeof(std::string)`. -/
def stringSize : Nat := 32

/-- A new string: the address of its characters and their number, and then the
    characters when the local buffer has room for them, else the capacity. -/
def Allocator.newString (alloc : Allocator) (s : List (Fin 256)) (h : Heap) :
    Option (Nat × Heap) := do
  let (str, h) ← alloc.allocate h stringSize
  if s.length ≤ 15 then
    let h ← h.store str (littleEndian 8 (str + 16) ++ littleEndian 8 s.length
      ++ (s ++ [0]))
    some (str, h)
  else
    let (buffer, h) ← alloc.allocate h (s.length + 1)
    let h ← h.store buffer (s ++ [0])
    let h ← h.store str (littleEndian 8 buffer ++ littleEndian 8 s.length
      ++ littleEndian 8 s.length)
    some (str, h)

section NewString

variable {alloc : Allocator} {h h' : Heap} {s : List (Fin 256)} {str : Nat}

/-- A string object is a new block; nothing that was there changes. -/
theorem Allocator.newString_eq_some
    (hs : alloc.newString s h = some (str, h')) :
    h.Fresh ⟨str, stringSize⟩ ∧ ⟨str, stringSize⟩ ∈ h'.blocks
      ∧ h.Grows h' nowhere := by
  obtain ⟨⟨a, h₁⟩, ha, hs⟩ := Option.bind_eq_some_iff.mp hs
  obtain ⟨hfresh, hblocks, hgrows⟩ := Allocator.allocate_eq_some ha
  have hself : ⟨a, stringSize⟩ ∈ h₁.blocks := hblocks ▸ List.mem_cons_self
  simp only at hs
  split_ifs at hs with hshort
  · -- a short string is written into the object
    obtain ⟨h₂, hst, hs⟩ := Option.bind_eq_some_iff.mp hs
    obtain ⟨rfl, rfl⟩ := Prod.mk.inj (Option.some.inj hs)
    obtain ⟨-, rfl⟩ := Heap.store_eq_some_iff.mp hst
    refine ⟨hfresh, hself, Heap.Grows.of_fresh hfresh ?_⟩
    refine (hgrows.trans (Heap.grows_write _ _ _)).mono ?_
    rintro x (hx | ⟨hx, hx'⟩)
    · exact hx.elim
    · refine ⟨hx, lt_of_lt_of_le hx' (Nat.add_le_add_left ?_ a)⟩
      simp only [List.length_append, length_littleEndian,
        List.length_singleton, stringSize]
      omega
  · -- a longer one goes to a buffer of its own
    obtain ⟨⟨b, h₂⟩, hb, hs⟩ := Option.bind_eq_some_iff.mp hs
    obtain ⟨hfreshb, hblocksb, hgrowsb⟩ := Allocator.allocate_eq_some hb
    obtain ⟨h₃, hst, hs⟩ := Option.bind_eq_some_iff.mp hs
    obtain ⟨h₄, hst', hs⟩ := Option.bind_eq_some_iff.mp hs
    obtain ⟨rfl, rfl⟩ := Prod.mk.inj (Option.some.inj hs)
    obtain ⟨-, rfl⟩ := Heap.store_eq_some_iff.mp hst
    obtain ⟨-, rfl⟩ := Heap.store_eq_some_iff.mp hst'
    have hbuffer : h₁.Grows { h₂ with bytes := write h₂.bytes b (s ++ [0]) }
        nowhere := by
      refine Heap.Grows.of_fresh hfreshb ?_
      refine (hgrowsb.trans (Heap.grows_write _ _ _)).mono ?_
      rintro x (hx | ⟨hx, hx'⟩)
      · exact hx.elim
      · rw [List.length_append, List.length_singleton] at hx'
        exact ⟨hx, hx'⟩
    refine ⟨hfresh, hbuffer.blocks _ hself, Heap.Grows.of_fresh hfresh ?_⟩
    refine ((hgrows.trans hbuffer).trans (Heap.grows_write _ _ _)).mono ?_
    rintro x ((hx | hx) | ⟨hx, hx'⟩)
    · exact hx.elim
    · exact hx.elim
    · refine ⟨hx, lt_of_lt_of_le hx' (Nat.add_le_add_left ?_ a)⟩
      simp only [List.length_append, length_littleEndian, stringSize]
      omega

/-- It starts with the address of its characters. -/
theorem Allocator.read_newString
    (hs : alloc.newString s h = some (str, h')) :
    ∃ chars, read h'.bytes str 8 = littleEndian 8 chars
      ∧ (s.length ≤ 15 → chars = str + 16) := by
  obtain ⟨⟨a, h₁⟩, ha, hs⟩ := Option.bind_eq_some_iff.mp hs
  have hread : ∀ (m : Mem) (n : Nat) (bs : List (Fin 256)),
      read (write m a (littleEndian 8 n ++ bs)) a 8 = littleEndian 8 n := by
    intro m n bs
    have hall := read_write_self m a (littleEndian 8 n ++ bs)
    have htake := congrArg (List.take 8) hall
    rwa [take_read (by simp), List.take_left' (length_littleEndian 8 n)]
      at htake
  simp only at hs
  split_ifs at hs with hshort
  · obtain ⟨h₂, hst, hs⟩ := Option.bind_eq_some_iff.mp hs
    obtain ⟨rfl, rfl⟩ := Prod.mk.inj (Option.some.inj hs)
    obtain ⟨-, rfl⟩ := Heap.store_eq_some_iff.mp hst
    refine ⟨a + 16, ?_, fun _ => rfl⟩
    simp only [List.append_assoc]
    exact hread _ _ _
  · obtain ⟨⟨b, h₂⟩, -, hs⟩ := Option.bind_eq_some_iff.mp hs
    obtain ⟨h₃, -, hs⟩ := Option.bind_eq_some_iff.mp hs
    obtain ⟨h₄, hst', hs⟩ := Option.bind_eq_some_iff.mp hs
    obtain ⟨rfl, rfl⟩ := Prod.mk.inj (Option.some.inj hs)
    obtain ⟨-, rfl⟩ := Heap.store_eq_some_iff.mp hst'
    refine ⟨b, ?_, fun hle => absurd hle hshort⟩
    simp only [List.append_assoc]
    exact hread _ _ _

/-- A short string needs no other block. -/
theorem Allocator.newString_short {a : Nat} {h₁ : Heap}
    (ha : alloc.allocate h stringSize = some (a, h₁)) (hs : s.length ≤ 15) :
    ∃ h', alloc.newString s h = some (a, h') := by
  obtain ⟨-, hblocks, -⟩ := Allocator.allocate_eq_some ha
  have hself : ⟨a, stringSize⟩ ∈ h₁.blocks := hblocks ▸ List.mem_cons_self
  have hstore : ∃ h', h₁.store a (littleEndian 8 (a + 16)
      ++ littleEndian 8 s.length ++ (s ++ [0])) = some h'
      ∧ h'.blocks = h₁.blocks := by
    refine Heap.store_returns hself
      ⟨Nat.le_refl _, Nat.add_le_add_left ?_ a⟩
    simp only [List.length_append, length_littleEndian, List.length_singleton,
      stringSize]
    omega
  obtain ⟨h', hstore, -⟩ := hstore
  refine ⟨h', ?_⟩
  rw [newString, ha]
  simp only [Option.bind_eq_bind, Option.bind_some, hs, if_true, hstore]

end NewString

/-! ## An allocator -/

/-- Where the last block ends. -/
def Heap.top (h : Heap) : Nat := (h.blocks.map Span.stop).foldr max 0

/-- Every block goes behind the others, and is zero. -/
def bump : Allocator := fun h _ => some (h.top, fun _ => 0)

/-- A heap without blocks. -/
def Heap.empty : Heap where
  bytes := fun _ => 0
  blocks := []
  apart := List.Pairwise.nil
  addressable := List.forall_mem_nil _

/-- Every block ends below the top. -/
theorem Heap.stop_le_top {h : Heap} {s : Span} (hs : s ∈ h.blocks) :
    s.stop ≤ h.top := by
  have hmem := List.mem_map_of_mem (f := Span.stop) hs
  rw [Heap.top]
  generalize h.blocks.map Span.stop = l at hmem
  induction l with
  | nil => cases hmem
  | cons n l ih =>
      rcases List.mem_cons.mp hmem with rfl | hl
      · exact le_max_left _ _
      · exact (ih hl).trans (le_max_right _ _)

/-- It refuses only when the addresses are used up. -/
theorem allocate_bump {h : Heap} {n : Nat} (hn : h.top + n ≤ 2 ^ 64) :
    ∃ h', Allocator.allocate bump h n = some (h.top, h')
      ∧ h'.top = h.top + n := by
  have hfresh : h.Fresh ⟨h.top, n⟩ :=
    ⟨hn, fun t ht => Or.inr (Heap.stop_le_top ht)⟩
  refine ⟨h.add ⟨h.top, n⟩ (fun _ => 0) hfresh, ?_, ?_⟩
  · rw [Allocator.allocate, bump]
    exact dif_pos hfresh
  · exact max_eq_left (Nat.le_add_right h.top n)

/-! ## Fields -/

/-- The offset of a field among fields of these sizes. -/
def offset (sizes : List Nat) (i : Nat) : Nat := (sizes.take i).sum

section Offset

variable {sizes : List Nat} {i j n x : Nat}

@[simp] theorem offset_zero (sizes : List Nat) : offset sizes 0 = 0 := rfl

@[simp] theorem offset_cons_succ (n : Nat) (sizes : List Nat) (i : Nat) :
    offset (n :: sizes) (i + 1) = n + offset sizes i := rfl

/-- An offset grows by the size in front of it. -/
theorem offset_succ (hi : sizes[i]? = some n) :
    offset sizes (i + 1) = offset sizes i + n := by
  obtain ⟨hlt, rfl⟩ := List.getElem?_eq_some_iff.mp hi
  rw [offset, offset, List.take_succ_eq_append_getElem hlt, List.sum_append,
    List.sum_singleton]

theorem offset_mono (h : i ≤ j) : offset sizes i ≤ offset sizes j := by
  obtain ⟨d, rfl⟩ := Nat.exists_eq_add_of_le h
  rw [offset, offset, List.take_add, List.sum_append]
  exact Nat.le_add_right _ _

theorem offset_le_sum (sizes : List Nat) (i : Nat) :
    offset sizes i ≤ sizes.sum := by
  conv_rhs => rw [← List.take_append_drop i sizes, List.sum_append]
  exact Nat.le_add_right _ _

/-- A field ends before the next ones begin. -/
theorem offset_add_le (hi : sizes[i]? = some n) (hij : i < j) :
    offset sizes i + n ≤ offset sizes j := by
  rw [← offset_succ hi]
  exact offset_mono hij

theorem offset_add_le_sum (hi : sizes[i]? = some n) :
    offset sizes i + n ≤ sizes.sum := by
  rw [← offset_succ hi]
  exact offset_le_sum sizes (i + 1)

/-- What is below the offset of a field is in a field before it. -/
theorem exists_field (hx : x < offset sizes i) :
    ∃ j < i, ∃ n, sizes[j]? = some n
      ∧ offset sizes j ≤ x ∧ x < offset sizes j + n := by
  induction i generalizing sizes x with
  | zero => exact absurd hx (Nat.not_lt_zero x)
  | succ i ih =>
      cases sizes with
      | nil => simp [offset] at hx
      | cons n sizes =>
          rcases Nat.lt_or_ge x n with hlt | hge
          · exact ⟨0, Nat.succ_pos i, n, rfl, Nat.zero_le x, by simpa using hlt⟩
          · rw [offset_cons_succ] at hx
            obtain ⟨j, hj, k, hk, hlo, hhi⟩ :=
              @ih sizes (x - n) (by omega)
            refine ⟨j + 1, Nat.succ_lt_succ hj, k, hk, ?_, ?_⟩
            · rw [offset_cons_succ]
              omega
            · rw [offset_cons_succ]
              omega

end Offset

end ByteMemory
