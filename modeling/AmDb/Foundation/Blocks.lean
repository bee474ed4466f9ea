import Mathlib.Data.List.Pairwise
import Mathlib.Order.Bounds.Basic

/-! # Blocks of an ascending list

    A list cut in consecutive blocks, none of them empty.  When the keys of the
    list ascend, the closed range from a block's first key to its last holds
    just the elements of that block. -/

namespace Blocks

variable {α β : Type} [LinearOrder β]

/-- The keys ascend. -/
def Ascending (key : α → β) (l : List α) : Prop :=
  l.Pairwise (fun a b => key a < key b)

/-- The block begins at `lo` and ends at `hi`. -/
def Spans (key : α → β) (block : List α) (lo hi : β) : Prop :=
  block.head?.map key = some lo ∧ block.getLast?.map key = some hi

variable {key : α → β} {block : List α} {lo hi : β}

/-- The elements of a block are in its range. -/
theorem Spans.bounds (hs : Spans key block lo hi) (ha : Ascending key block)
    {x : α} (hx : x ∈ block) : lo ≤ key x ∧ key x ≤ hi := by
  obtain ⟨hlo, hhi⟩ := hs
  obtain ⟨a, hhead, rfl⟩ := Option.map_eq_some_iff.mp hlo
  obtain ⟨b, hlast, rfl⟩ := Option.map_eq_some_iff.mp hhi
  obtain ⟨tail, rfl⟩ := List.head?_eq_some_iff.mp hhead
  refine ⟨?_, ?_⟩
  · rcases List.mem_cons.mp hx with rfl | hx
    · exact le_refl _
    · exact le_of_lt ((List.pairwise_cons.mp ha).1 x hx)
  · obtain ⟨front, hfront⟩ := List.getLast?_eq_some_iff.mp hlast
    rw [hfront] at hx ha
    rcases List.mem_append.mp hx with hx | hx
    · exact le_of_lt ((List.pairwise_append.mp ha).2.2 x hx b
        (List.mem_singleton_self b))
    · rw [List.mem_singleton.mp hx]

/-- The first key of a block is not above its last. -/
theorem Spans.le (hs : Spans key block lo hi) (ha : Ascending key block) :
    lo ≤ hi := by
  obtain ⟨a, hhead, -⟩ := Option.map_eq_some_iff.mp hs.1
  obtain ⟨h₁, h₂⟩ := hs.bounds ha (List.mem_of_head? hhead)
  exact le_trans h₁ h₂

/-- In the whole list, the range of a block picks out the block. -/
theorem Spans.filter_eq {pre post : List α}
    (hs : Spans key block lo hi) (ha : Ascending key (pre ++ block ++ post)) :
    (pre ++ block ++ post).filter (fun x => lo ≤ key x ∧ key x ≤ hi)
      = block := by
  obtain ⟨hpb, hpost, hsep⟩ := List.pairwise_append.mp ha
  obtain ⟨-, hblock, hbelow⟩ := List.pairwise_append.mp hpb
  obtain ⟨a, hhead, hlo⟩ := Option.map_eq_some_iff.mp hs.1
  obtain ⟨b, hlast, hhi⟩ := Option.map_eq_some_iff.mp hs.2
  have ha := List.mem_of_head? hhead
  have hb := List.mem_of_getLast? hlast
  rw [List.filter_append, List.filter_append]
  have h₁ : pre.filter (fun x => lo ≤ key x ∧ key x ≤ hi) = [] := by
    refine List.filter_eq_nil_iff.mpr (fun x hx h => ?_)
    have hlt := hbelow x hx a ha
    rw [hlo] at hlt
    exact absurd (of_decide_eq_true h).1 (not_le.mpr hlt)
  have h₂ : block.filter (fun x => lo ≤ key x ∧ key x ≤ hi) = block :=
    List.filter_eq_self.mpr (fun x hx => decide_eq_true (hs.bounds hblock hx))
  have h₃ : post.filter (fun x => lo ≤ key x ∧ key x ≤ hi) = [] := by
    refine List.filter_eq_nil_iff.mpr (fun x hx h => ?_)
    have hlt := hsep b (List.mem_append_right pre hb) x hx
    rw [hhi] at hlt
    exact absurd (of_decide_eq_true h).2 (not_le.mpr hlt)
  rw [h₁, h₂, h₃, List.nil_append, List.append_nil]

/-! ## All blocks -/

section Cover

variable {γ : Type} {blocks : List (List α)} {bs : List γ}

/-- A block among the others, with what belongs to it. -/
theorem exists_block {R : List α → γ → Prop} (h : List.Forall₂ R blocks bs)
    {b : γ} (hb : b ∈ bs) :
    ∃ pre block post, blocks = pre ++ block :: post ∧ R block b := by
  induction h with
  | nil => exact absurd hb List.not_mem_nil
  | @cons block b' blocks bs hR _ ih =>
      rcases List.mem_cons.mp hb with rfl | hb
      · exact ⟨[], block, blocks, rfl, hR⟩
      · obtain ⟨pre, block', post, rfl, hR'⟩ := ih hb
        exact ⟨block :: pre, block', post, rfl, hR'⟩

/-- The range of every block. -/
def Ranges (key : α → β) (lo hi : γ → β) (blocks : List (List α))
    (bs : List γ) : Prop :=
  List.Forall₂ (fun block b => Spans key block (lo b) (hi b)) blocks bs

variable {lo hi : γ → β}

/-- What lies in a later range lies in a later block or between two. -/
theorem Ranges.above (h : Ranges key lo hi blocks bs) {k : β}
    (hk : ∀ x ∈ blocks.flatten, k < key x) {b : γ} (hb : b ∈ bs) :
    k < lo b := by
  obtain ⟨pre, block, post, rfl, hs⟩ := exists_block h hb
  obtain ⟨a, hhead, hlo⟩ := Option.map_eq_some_iff.mp hs.1
  rw [← hlo]
  refine hk a ?_
  rw [List.flatten_append, List.flatten_cons]
  exact List.mem_append_right _
    (List.mem_append_left _ (List.mem_of_head? hhead))

/-- Every element is in just one range. -/
theorem Ranges.once (h : Ranges key lo hi blocks bs)
    (ha : Ascending key blocks.flatten) {x : α} (hx : x ∈ blocks.flatten) :
    (bs.filter (fun b => lo b ≤ key x ∧ key x ≤ hi b)).length = 1 := by
  induction h with
  | nil => exact absurd hx List.not_mem_nil
  | @cons block b blocks bs hs hrest ih =>
      rw [List.flatten_cons] at ha hx
      obtain ⟨hblock, hflat, hsep⟩ := List.pairwise_append.mp ha
      rcases List.mem_append.mp hx with hx | hx
      · have hnone : bs.filter (fun b => lo b ≤ key x ∧ key x ≤ hi b) = [] := by
          refine List.filter_eq_nil_iff.mpr (fun c hc hin => ?_)
          have hlt := Ranges.above hrest (hsep x hx) hc
          exact absurd (of_decide_eq_true hin).1 (not_le.mpr hlt)
        have hin := decide_eq_true (hs.bounds hblock hx)
        rw [List.filter_cons, if_pos hin, hnone, List.length_singleton]
      · have hout : ¬ (lo b ≤ key x ∧ key x ≤ hi b) := by
          rintro ⟨-, hle⟩
          obtain ⟨y, hlast, hhi⟩ := Option.map_eq_some_iff.mp hs.2
          have hlt := hsep y (List.mem_of_getLast? hlast) x hx
          rw [hhi] at hlt
          exact absurd hle (not_le.mpr hlt)
        rw [List.filter_cons_of_neg (by simpa using hout)]
        exact ih hflat hx

/-- The ranges ascend. -/
theorem Ranges.pairwise (h : Ranges key lo hi blocks bs)
    (ha : Ascending key blocks.flatten) :
    bs.Pairwise (fun b c => hi b < lo c) := by
  induction h with
  | nil => exact List.Pairwise.nil
  | @cons block b blocks bs hs hrest ih =>
      rw [List.flatten_cons] at ha
      obtain ⟨-, hflat, hsep⟩ := List.pairwise_append.mp ha
      refine List.pairwise_cons.mpr ⟨fun c hc => ?_, ih hflat⟩
      obtain ⟨y, hlast, hhi⟩ := Option.map_eq_some_iff.mp hs.2
      rw [← hhi]
      exact Ranges.above hrest (hsep y (List.mem_of_getLast? hlast)) hc

end Cover

end Blocks
