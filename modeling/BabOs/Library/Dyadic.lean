import Mathlib.Tactic
import Mathlib.Data.Nat.Bitwise
import Mathlib.Order.CompletePartialOrder
import Mathlib.Data.Set.Pairwise.Lattice
import Mathlib.Order.Interval.Set.Disjoint

/-!
# Naturally aligned power-of-two blocks

A block of order `k` is a run of `2 ^ k` consecutive numbers; it is aligned
when its start is a multiple of its length.  Two aligned blocks are nested or
disjoint, which makes the tilings of a set by aligned blocks rigid: a tiling
in which no two buddies meet is the set of maximal aligned blocks.
-/

namespace BabOs.Dyadic

/-- The run of `2 ^ order` numbers from `start` on. -/
structure Block where
  start : ℕ
  order : ℕ
  deriving DecidableEq

namespace Block

def pages (b : Block) : Set ℕ :=
  Set.Ico b.start (b.start + 2 ^ b.order)

def Aligned (b : Block) : Prop :=
  2 ^ b.order ∣ b.start

/-- The other half of the aligned block of the next order. -/
def buddy (b : Block) : Block :=
  ⟨b.start ^^^ 2 ^ b.order, b.order⟩

/-- The block of the next order made of a block and its buddy. -/
def parent (b : Block) : Block :=
  ⟨min b.start b.buddy.start, b.order + 1⟩

variable {b c : Block} {x : ℕ}

theorem mem_pages : x ∈ b.pages ↔ b.start ≤ x ∧ x < b.start + 2 ^ b.order :=
  Iff.rfl

theorem start_mem_pages : b.start ∈ b.pages :=
  ⟨le_refl _, Nat.lt_add_of_pos_right (Nat.two_pow_pos _)⟩

theorem Aligned.mem_pages_iff (hb : b.Aligned) :
    x ∈ b.pages ↔ x / 2 ^ b.order = b.start / 2 ^ b.order := by
  obtain ⟨q, hq⟩ := hb
  have hpos : 0 < 2 ^ b.order := Nat.two_pow_pos _
  rw [mem_pages, hq, Nat.mul_div_cancel_left _ hpos, Nat.div_eq_iff hpos]
  constructor
  · rintro ⟨h1, h2⟩
    constructor
    · rw [Nat.mul_comm]; exact h1
    · rw [Nat.mul_comm]; omega
  · rintro ⟨h1, h2⟩
    rw [Nat.mul_comm] at h1 h2
    omega

theorem Aligned.pages_subset (hb : b.Aligned) (hc : c.Aligned)
    (horder : b.order ≤ c.order) (hxb : x ∈ b.pages) (hxc : x ∈ c.pages) :
    b.pages ⊆ c.pages := by
  intro y hy
  rw [hb.mem_pages_iff] at hxb hy
  rw [hc.mem_pages_iff] at hxc ⊢
  have hcoarse : ∀ z, z / 2 ^ c.order =
      z / 2 ^ b.order / 2 ^ (c.order - b.order) := by
    intro z
    rw [Nat.div_div_eq_div_mul, ← pow_add, Nat.add_sub_cancel' horder]
  rw [hcoarse, hy, ← hxb, ← hcoarse, hxc]

theorem order_le_of_pages_subset (h : b.pages ⊆ c.pages) :
    b.order ≤ c.order := by
  have hfirst := h start_mem_pages
  have hlen : 0 < 2 ^ b.order := Nat.two_pow_pos _
  have hlast : b.start + (2 ^ b.order - 1) ∈ c.pages := by
    apply h
    rw [mem_pages]
    omega
  rw [mem_pages] at hfirst hlast
  have hle : 2 ^ b.order ≤ 2 ^ c.order := by omega
  exact (Nat.pow_le_pow_iff_right (by norm_num)).mp hle

theorem Aligned.eq_of_order_eq (hb : b.Aligned) (hc : c.Aligned)
    (horder : b.order = c.order) (hxb : x ∈ b.pages) (hxc : x ∈ c.pages) :
    b = c := by
  rw [hb.mem_pages_iff] at hxb
  rw [hc.mem_pages_iff, ← horder] at hxc
  have hstart : b.start = c.start := by
    rw [← Nat.div_mul_cancel hb, ← hxb, hxc]
    have hcb : 2 ^ b.order ∣ c.start := by
      rw [horder]
      exact hc
    exact Nat.div_mul_cancel hcb
  cases b
  cases c
  simp_all

/-! ### Buddies -/

/-- The buddy of an aligned block lies right above it when the block starts
its parent, and right below it otherwise. -/
theorem Aligned.buddy_cases (hb : b.Aligned) :
    (2 ^ (b.order + 1) ∣ b.start ∧
        b.buddy.start = b.start + 2 ^ b.order) ∨
      (2 ^ (b.order + 1) ∣ b.buddy.start ∧
        b.start = b.buddy.start + 2 ^ b.order) := by
  obtain ⟨q, hq⟩ := hb
  have hxor : b.buddy.start = 2 ^ b.order * (q ^^^ 1) := by
    have h := Nat.shiftLeft_xor_distrib (i := b.order) (a := q) (b := 1)
    simp only [Nat.shiftLeft_eq, one_mul] at h
    rw [buddy, hq, Nat.mul_comm, ← h, Nat.mul_comm]
  rcases Nat.even_or_odd q with heven | hodd
  · refine Or.inl ⟨?_, ?_⟩
    · obtain ⟨r, rfl⟩ := heven
      exact ⟨r, by rw [hq]; ring⟩
    · rw [hxor, Nat.xor_one_of_even heven, hq]
      ring
  · refine Or.inr ⟨?_, ?_⟩
    · obtain ⟨r, rfl⟩ := hodd
      rw [hxor, Nat.xor_one_of_odd ⟨r, rfl⟩]
      exact ⟨r, by rw [Nat.add_sub_cancel]; ring⟩
    · obtain ⟨r, rfl⟩ := hodd
      rw [hxor, Nat.xor_one_of_odd ⟨r, rfl⟩, hq, Nat.add_sub_cancel]
      ring

theorem buddy_order : b.buddy.order = b.order :=
  rfl

@[simp] theorem buddy_buddy : b.buddy.buddy = b := by
  cases b
  simp [buddy]

theorem Aligned.buddy (hb : b.Aligned) : b.buddy.Aligned := by
  change 2 ^ b.order ∣ b.buddy.start
  have hhalf : 2 ^ b.order ∣ 2 ^ (b.order + 1) := ⟨2, by ring⟩
  rcases hb.buddy_cases with ⟨-, hstart⟩ | ⟨hdvd, -⟩
  · rw [hstart]
    exact (Nat.dvd_add_right hb).mpr dvd_rfl
  · exact hhalf.trans hdvd

theorem Aligned.parent (hb : b.Aligned) : b.parent.Aligned := by
  change 2 ^ (b.order + 1) ∣ min b.start b.buddy.start
  rcases hb.buddy_cases with ⟨hdvd, hstart⟩ | ⟨hdvd, hstart⟩
  · rwa [min_eq_left (hstart ▸ Nat.le_add_right _ _)]
  · rwa [min_eq_right (hstart ▸ Nat.le_add_right _ _)]

theorem Aligned.pages_parent (hb : b.Aligned) :
    b.parent.pages = b.pages ∪ b.buddy.pages := by
  have hlen : 2 ^ (b.order + 1) = 2 ^ b.order + 2 ^ b.order := by ring
  ext x
  simp only [Set.mem_union, mem_pages, Block.parent, buddy_order, hlen]
  rcases hb.buddy_cases with ⟨-, hstart⟩ | ⟨-, hstart⟩
  · rw [min_eq_left (hstart ▸ Nat.le_add_right _ _)]
    omega
  · rw [min_eq_right (hstart ▸ Nat.le_add_right _ _)]
    omega

theorem Aligned.disjoint_buddy (hb : b.Aligned) :
    Disjoint b.pages b.buddy.pages := by
  rw [Set.disjoint_left]
  intro x hx hy
  rw [mem_pages] at hx hy
  rw [buddy_order] at hy
  rcases hb.buddy_cases with ⟨-, hstart⟩ | ⟨-, hstart⟩ <;> omega

theorem buddy_of_dvd {p k : ℕ} (h : 2 ^ (k + 1) ∣ p) :
    buddy ⟨p, k⟩ = ⟨p + 2 ^ k, k⟩ := by
  have hb : Aligned ⟨p, k⟩ := Dvd.dvd.trans ⟨2, by ring⟩ h
  rcases hb.buddy_cases with ⟨-, hstart⟩ | ⟨hdvd, hstart⟩
  · simpa [buddy] using hstart
  · obtain ⟨q, hq⟩ := h
    obtain ⟨r, hr⟩ := hdvd
    have hpos : 0 < 2 ^ k := Nat.two_pow_pos _
    have hodd : 2 ^ k * (2 * q) = 2 ^ k * (2 * r + 1) := by
      have hp : p = 2 ^ (k + 1) * r + 2 ^ k := by rw [← hr]; exact hstart
      calc
        2 ^ k * (2 * q) = p := by rw [hq]; ring
        _ = 2 ^ k * (2 * r + 1) := by rw [hp]; ring
    have := Nat.eq_of_mul_eq_mul_left hpos hodd
    omega

theorem parent_of_dvd {p k : ℕ} (h : 2 ^ (k + 1) ∣ p) :
    parent ⟨p, k⟩ = ⟨p, k + 1⟩ := by
  have hbuddy : (buddy ⟨p, k⟩).start = p + 2 ^ k := by
    rw [buddy_of_dvd h]
  rw [parent, hbuddy, min_eq_left (Nat.le_add_right _ _)]

end Block

/-! ## Tilings -/

open Block

/-- The blocks of `T` are aligned and pairwise disjoint and together cover
exactly `S`. -/
structure Tiles (T : Set Block) (S : Set ℕ) : Prop where
  aligned : ∀ b ∈ T, b.Aligned
  disjoint : T.PairwiseDisjoint Block.pages
  cover : ⋃ b ∈ T, b.pages = S

section Tilings

variable {T : Set Block} {S : Set ℕ} {b c : Block} {x : ℕ}

theorem tiles_empty : Tiles ∅ ∅ :=
  ⟨by simp, by simp, by simp⟩

theorem Tiles.mem_iff (h : Tiles T S) : x ∈ S ↔ ∃ b ∈ T, x ∈ b.pages := by
  rw [← h.cover]
  simp

theorem Tiles.pages_subset (h : Tiles T S) (hb : b ∈ T) : b.pages ⊆ S :=
  fun _ hx => h.mem_iff.mpr ⟨b, hb, hx⟩

theorem Tiles.eq_of_mem (h : Tiles T S) (hb : b ∈ T) (hc : c ∈ T)
    (hxb : x ∈ b.pages) (hxc : x ∈ c.pages) : b = c := by
  by_contra hne
  exact Set.disjoint_left.mp (h.disjoint hb hc hne) hxb hxc

theorem Tiles.insert (h : Tiles T S) (hb : b.Aligned)
    (hdisjoint : Disjoint b.pages S) : Tiles (insert b T) (b.pages ∪ S) := by
  refine ⟨?_, ?_, ?_⟩
  · rintro c (rfl | hc)
    · exact hb
    · exact h.aligned c hc
  · refine h.disjoint.insert fun c hc _ => ?_
    exact hdisjoint.mono_right (h.pages_subset hc)
  · rw [Set.biUnion_insert, h.cover]

theorem Tiles.erase (h : Tiles T S) (hb : b ∈ T) :
    Tiles (T \ {b}) (S \ b.pages) := by
  refine ⟨fun c hc => h.aligned c hc.1, ?_, ?_⟩
  · exact h.disjoint.subset Set.sdiff_subset
  · ext x
    simp only [Set.mem_iUnion, exists_prop, Set.mem_sdiff,
      Set.mem_singleton_iff]
    constructor
    · rintro ⟨c, ⟨hc, hne⟩, hx⟩
      refine ⟨h.mem_iff.mpr ⟨c, hc, hx⟩, fun hxb => hne ?_⟩
      exact h.eq_of_mem hc hb hx hxb
    · rintro ⟨hx, hxb⟩
      obtain ⟨c, hc, hxc⟩ := h.mem_iff.mp hx
      refine ⟨c, ⟨hc, ?_⟩, hxc⟩
      rintro rfl
      exact hxb hxc

/-- The tiles of one part tile what the tiles of the other part leave. -/
theorem Tiles.left {U : Set Block} (h : Tiles (T ∪ U) S)
    (hTU : Disjoint T U) : Tiles T (S \ ⋃ b ∈ U, b.pages) := by
  refine ⟨fun b hb => h.aligned b (Or.inl hb),
    h.disjoint.subset Set.subset_union_left, ?_⟩
  ext x
  simp only [Set.mem_iUnion, exists_prop, Set.mem_sdiff, not_exists, not_and]
  constructor
  · rintro ⟨b, hb, hx⟩
    refine ⟨h.mem_iff.mpr ⟨b, Or.inl hb, hx⟩, fun c hc hxc => ?_⟩
    have heq := h.eq_of_mem (Or.inl hb) (Or.inr hc) hx hxc
    exact Set.disjoint_left.mp hTU hb (heq ▸ hc)
  · rintro ⟨hx, hU⟩
    obtain ⟨b, hb | hb, hxb⟩ := h.mem_iff.mp hx
    · exact ⟨b, hb, hxb⟩
    · exact absurd hxb (hU b hb)

/-- Replacing a tile by its two halves. -/
theorem Tiles.split (h : Tiles T S) (hb : b.Aligned) (hparent : b.parent ∈ T) :
    Tiles (Insert.insert b (Insert.insert b.buddy (T \ {b.parent}))) S := by
  have hrest := h.erase hparent
  have hunion : b.pages ∪ (b.buddy.pages ∪ (S \ b.parent.pages)) = S := by
    rw [← Set.union_assoc, ← hb.pages_parent]
    exact Set.union_sdiff_cancel (h.pages_subset hparent)
  have hbuddy : Disjoint b.buddy.pages (S \ b.parent.pages) := by
    rw [hb.pages_parent]
    exact Set.disjoint_sdiff_right.mono_left Set.subset_union_right
  have hb' : Disjoint b.pages (b.buddy.pages ∪ (S \ b.parent.pages)) := by
    refine Set.disjoint_union_right.mpr ⟨hb.disjoint_buddy, ?_⟩
    rw [hb.pages_parent]
    exact Set.disjoint_sdiff_right.mono_left Set.subset_union_left
  rw [← hunion]
  exact (hrest.insert hb.buddy hbuddy).insert hb hb'

/-- Replacing two buddies by their parent. -/
theorem Tiles.merge (h : Tiles T S) (hb : b ∈ T) (hbuddy : b.buddy ∈ T) :
    Tiles (Insert.insert b.parent ((T \ {b}) \ {b.buddy})) S := by
  have halign := h.aligned b hb
  have hne : b.buddy ≠ b := by
    intro heq
    have hdisjoint := halign.disjoint_buddy
    rw [heq] at hdisjoint
    exact Set.disjoint_left.mp hdisjoint start_mem_pages start_mem_pages
  have hrest := (h.erase hb).erase (b := b.buddy) ⟨hbuddy, hne⟩
  have hrestPages : (S \ b.pages) \ b.buddy.pages = S \ b.parent.pages := by
    rw [halign.pages_parent]
    exact sdiff_sdiff_left
  have hsub : b.parent.pages ⊆ S := by
    rw [halign.pages_parent]
    exact Set.union_subset (h.pages_subset hb) (h.pages_subset hbuddy)
  have hunion : b.parent.pages ∪ ((S \ b.pages) \ b.buddy.pages) = S := by
    rw [hrestPages]
    exact Set.union_sdiff_cancel hsub
  have hdisjoint :
      Disjoint b.parent.pages ((S \ b.pages) \ b.buddy.pages) := by
    rw [hrestPages]
    exact Set.disjoint_sdiff_right
  rw [← hunion]
  exact hrest.insert halign.parent hdisjoint

/-- A tile that holds the first page of the buddy of a tile either is inside
the buddy and starts with it, or is the buddy itself. -/
theorem Tiles.start_eq_of_mem_buddy (h : Tiles T S) (hb : b ∈ T) (hc : c ∈ T)
    (hx : b.buddy.start ∈ c.pages) :
    c.start = b.buddy.start ∧ c.order ≤ b.order := by
  have halign := h.aligned b hb
  have hcalign := h.aligned c hc
  have horder : c.order ≤ b.order := by
    by_contra hlt
    have hparent : b.buddy.start ∈ b.parent.pages := by
      rw [halign.pages_parent]
      exact Or.inr start_mem_pages
    have hsub := halign.parent.pages_subset hcalign
      (Nat.succ_le_of_lt (not_le.mp hlt)) hparent hx
    rw [halign.pages_parent] at hsub
    have heq := h.eq_of_mem hb hc start_mem_pages
      (hsub (Or.inl start_mem_pages))
    rw [heq] at hlt
    exact hlt le_rfl
  refine ⟨?_, horder⟩
  have hdvd : 2 ^ c.order ∣ b.buddy.start :=
    (pow_dvd_pow 2 horder).trans halign.buddy
  rw [hcalign.mem_pages_iff] at hx
  rw [← Nat.div_mul_cancel hcalign, ← hx, Nat.div_mul_cancel hdvd]

/-! ## Maximal blocks -/

/-- `b` is an aligned block of order below `K` inside `S`, and no other such
block contains it. -/
structure IsMaximal (K : ℕ) (S : Set ℕ) (b : Block) : Prop where
  aligned : b.Aligned
  order_lt : b.order < K
  subset : b.pages ⊆ S
  maximal : ∀ c : Block, c.Aligned → c.order < K → c.pages ⊆ S →
    b.pages ⊆ c.pages → c = b

/-- No two blocks of the tiling could still be merged into one of order below
`K`. -/
def NoBuddies (K : ℕ) (T : Set Block) : Prop :=
  ∀ b ∈ T, b.order + 1 < K → b.buddy ∉ T

/-- Without buddies every aligned block inside the tiled set lies inside one
tile: its two halves lie in tiles, which are the halves themselves, hence
buddies, or contain all of the block. -/
theorem Tiles.exists_superset {K : ℕ} (h : Tiles T S) (hT : NoBuddies K T)
    (hc : c.Aligned) (hK : c.order < K) (hsub : c.pages ⊆ S) :
    ∃ b ∈ T, c.pages ⊆ b.pages := by
  obtain ⟨p, k⟩ := c
  induction k generalizing p with
  | zero =>
      obtain ⟨b, hb, hx⟩ := h.mem_iff.mp (hsub start_mem_pages)
      exact ⟨b, hb, hc.pages_subset (h.aligned b hb) (Nat.zero_le _)
        start_mem_pages hx⟩
  | succ k ih =>
      have hlow : Aligned ⟨p, k⟩ := Dvd.dvd.trans ⟨2, by ring⟩ hc
      have hparent := parent_of_dvd hc
      have hpages := hlow.pages_parent
      rw [hparent] at hpages
      rw [buddy_of_dvd hc] at hpages
      have hhigh : Aligned ⟨p + 2 ^ k, k⟩ := by
        rw [← buddy_of_dvd hc]
        exact hlow.buddy
      obtain ⟨b, hbT, hb⟩ := ih p hlow (by simp_all; omega)
        (fun x hx => hsub (hpages ▸ Or.inl hx))
      obtain ⟨d, hdT, hd⟩ := ih (p + 2 ^ k) hhigh (by simp_all; omega)
        (fun x hx => hsub (hpages ▸ Or.inr hx))
      have hkb : k ≤ b.order := order_le_of_pages_subset hb
      have hkd : k ≤ d.order := order_le_of_pages_subset hd
      rcases Nat.eq_or_lt_of_le hkb with hbk | hbk
      · rcases Nat.eq_or_lt_of_le hkd with hdk | hdk
        · have hbp : (⟨p, k⟩ : Block) = b :=
            hlow.eq_of_order_eq (h.aligned b hbT) hbk start_mem_pages
              (hb start_mem_pages)
          have hdp : (⟨p + 2 ^ k, k⟩ : Block) = d :=
            hhigh.eq_of_order_eq (h.aligned d hdT) hdk start_mem_pages
              (hd start_mem_pages)
          refine absurd hdT ?_
          rw [← hdp, ← buddy_of_dvd hc, hbp]
          exact hT b hbT (by rw [← hbk]; exact hK)
        · exact ⟨d, hdT, hc.pages_subset (h.aligned d hdT) hdk
            (hpages ▸ Or.inr start_mem_pages) (hd start_mem_pages)⟩
      · exact ⟨b, hbT, hc.pages_subset (h.aligned b hbT) hbk
          start_mem_pages (hb start_mem_pages)⟩

/-- A tiling without buddies is the set of maximal aligned blocks. -/
theorem Tiles.eq_maximal {K : ℕ} (h : Tiles T S)
    (horder : ∀ b ∈ T, b.order < K) (hT : NoBuddies K T) :
    T = {b | IsMaximal K S b} := by
  ext b
  constructor
  · intro hb
    refine ⟨h.aligned b hb, horder b hb, h.pages_subset hb, ?_⟩
    intro c hc hK hcS hbc
    obtain ⟨d, hd, hcd⟩ := h.exists_superset hT hc hK hcS
    have hbd : b = d :=
      h.eq_of_mem hb hd start_mem_pages (hcd (hbc start_mem_pages))
    subst hbd
    have horder : c.order = b.order := le_antisymm
      (order_le_of_pages_subset hcd) (order_le_of_pages_subset hbc)
    exact hc.eq_of_order_eq (h.aligned b hb) horder
      (hbc start_mem_pages) start_mem_pages
  · intro hb
    obtain ⟨d, hd, hbd⟩ :=
      h.exists_superset hT hb.aligned hb.order_lt hb.subset
    have hdb : d = b := hb.maximal d (h.aligned d hd) (horder d hd)
      (h.pages_subset hd) hbd
    exact hdb ▸ hd

end Tilings
end BabOs.Dyadic
