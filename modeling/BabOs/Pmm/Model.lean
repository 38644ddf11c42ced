import BabOs.Library.Chain
import BabOs.Library.Dyadic

/-!
# The physical page allocator

This module embeds `pmm.c`: the page array, the free lists threaded through
it, and the buddy operations on them.  A `page_t *` is the index of the page
in the array, and the null pointer is `none`.
-/

namespace BabOs.Pmm

open BabOs.Chain

def pageSize : ℕ := 4096

/-- Orders run from `0` to `maxOrder - 1`. -/
def maxOrder : ℕ := 12

/-- Conversion to `uint8_t` on a store. -/
def uint8 (n : ℕ) : ℕ := n % 256

/-- `page_t`; `flags` is `0` for a free page and `1` for a used one. -/
structure Page where
  order : ℕ
  flags : ℕ
  next : Option ℕ
  prev : Option ℕ
  deriving DecidableEq

/-- The file-scope variables of `pmm.c`.  `pages i` is the entry at index `i`
of the array at `metadata`; only the first `totalPages` entries belong to it. -/
structure State where
  metadata : ℕ
  pages : ℕ → Page
  totalPages : ℕ
  freeLists : ℕ → Option ℕ

namespace State

def setPage (s : State) (i : ℕ) (p : Page) : State :=
  { s with pages := Function.update s.pages i p }

def setFreeList (s : State) (order : ℕ) (head : Option ℕ) : State :=
  { s with freeLists := Function.update s.freeLists order head }

/-- `pages[i].order = order; pages[i].flags = flags;` -/
def setMeta (s : State) (i order flags : ℕ) : State :=
  s.setPage i { s.pages i with order := uint8 order, flags := flags }

/-- The link fields of the page array. -/
def links (s : State) : Links ℕ where
  next := fun i => (s.pages i).next
  prev := fun i => (s.pages i).prev

end State

/-! ## List helpers -/

/-- `list_add(&free_lists[order], &pages[node])` -/
def listAdd (s : State) (order node : ℕ) : State :=
  let head := s.freeLists order
  let s := s.setPage node { s.pages node with next := head, prev := none }
  let s :=
    match head with
    | some h => s.setPage h { s.pages h with prev := some node }
    | none => s
  s.setFreeList order (some node)

/-- `list_remove(&free_lists[order], &pages[node])`.  Neither statement changes
the fields of `node`, so they are read once. -/
def listRemove (s : State) (order node : ℕ) : State :=
  let prev := (s.pages node).prev
  let next := (s.pages node).next
  let s :=
    match prev with
    | some p => s.setPage p { s.pages p with next := next }
    | none => s.setFreeList order next
  match next with
  | some n => s.setPage n { s.pages n with prev := prev }
  | none => s

/-- The three statements by which every operation hands a block back: set the
order and the flags of its head page and put that page on its list. -/
def addFreeBlock (s : State) (node order : ℕ) : State :=
  listAdd (s.setMeta node order 0) order node

/-! ## The operations -/

/-- `pmm_init`.  The entries outside the array keep what the memory held. -/
def pmmInit (s : State) (memSize metadataStart : ℕ) : State where
  metadata := metadataStart
  totalPages := memSize / pageSize
  pages := fun i =>
    if i < memSize / pageSize then
      { order := 0, flags := 1, next := none, prev := none }
    else s.pages i
  freeLists := fun i => if i < maxOrder then none else s.freeLists i

/-- The inner loop of `pmm_add_region`, entered with `order`; `fuel` is
`MAX_ORDER - 1 - order`. -/
def fitOrder (i endPage : ℕ) : (fuel order : ℕ) → ℕ
  | 0, order => order
  | fuel + 1, order =>
      let blockSize := 2 ^ (order + 1)
      if i + blockSize > endPage ∨ i % blockSize ≠ 0 then order
      else fitOrder i endPage fuel (order + 1)

/-- The outer loop of `pmm_add_region`.  Every round moves `i` up, so
`endPage - i` rounds are enough. -/
def addBlocks (s : State) (endPage : ℕ) : (fuel i : ℕ) → State
  | 0, _ => s
  | fuel + 1, i =>
      if i < endPage then
        let order := fitOrder i endPage (maxOrder - 1) 0
        addBlocks (addFreeBlock s i order) endPage fuel (i + 2 ^ order)
      else s

def pmmAddRegion (s : State) (start length : ℕ) : State :=
  let startPage := start / pageSize
  let endPage := (start + length) % 2 ^ 32 / pageSize
  addBlocks s endPage (endPage - startPage) startPage

/-- The splitting loop of `pmm_alloc_pages`, entered with `i`: the upper half
of the block goes back on a list until the order asked for is reached. -/
def splitBlock (s : State) (page order : ℕ) : (i : ℕ) → State
  | 0 => s
  | i + 1 =>
      if order < i + 1 then
        splitBlock (addFreeBlock s (page + 2 ^ i) i) page order i
      else s

/-- The outer loop of `pmm_alloc_pages`, entered with `i`; `fuel` is
`MAX_ORDER - i`. -/
def allocLoop (s : State) (order : ℕ) : (fuel i : ℕ) → Option ℕ × State
  | 0, _ => (none, s)
  | fuel + 1, i =>
      match s.freeLists i with
      | some page =>
          let s := listRemove s i page
          let s := splitBlock s page order i
          (some (page * pageSize), s.setMeta page order 1)
      | none => allocLoop s order fuel (i + 1)

/-- `pmm_alloc_pages`.  The result is the address of the block, and `none` is
the null pointer returned after the loop; a block at page `0` has address
`0`, which a caller cannot tell from it. -/
def pmmAllocPages (s : State) (order : ℕ) : Option ℕ × State :=
  allocLoop s order (maxOrder - order) order

/-- The merge loop of `pmm_free_pages`, entered with `pageIdx` and `order`;
`fuel` is `MAX_ORDER - 1 - order`. -/
def mergeLoop (s : State) : (fuel pageIdx order : ℕ) → State × ℕ × ℕ
  | 0, pageIdx, order => (s, pageIdx, order)
  | fuel + 1, pageIdx, order =>
      let buddyIdx := pageIdx ^^^ 2 ^ order
      let buddy := s.pages buddyIdx
      if s.totalPages ≤ buddyIdx ∨ buddy.flags = 1 ∨ buddy.order ≠ order then
        (s, pageIdx, order)
      else
        mergeLoop (listRemove s order buddyIdx) fuel
          (if buddyIdx < pageIdx then buddyIdx else pageIdx) (order + 1)

def pmmFreePages (s : State) (ptr order : ℕ) : State :=
  let r := mergeLoop s (maxOrder - 1 - order) (ptr / pageSize) order
  addFreeBlock r.1 r.2.1 r.2.2

/-! ## What the list helpers change -/

section ListHelpers

variable (s : State) (order node i flags : ℕ)

@[simp] theorem uint8_eq_of_lt {n : ℕ} (h : n < maxOrder) : uint8 n = n :=
  Nat.mod_eq_of_lt (h.trans (by decide))

theorem pages_setPage (p : Page) :
    (s.setPage node p).pages i = if i = node then p else s.pages i := by
  simp [State.setPage, Function.update_apply]

@[simp] theorem links_setMeta :
    (s.setMeta node order flags).links = s.links := by
  simp only [State.links, Links.mk.injEq]
  constructor <;> funext j <;> by_cases hj : j = node <;>
    simp [State.setMeta, pages_setPage, hj]

@[simp] theorem freeLists_setMeta :
    (s.setMeta node order flags).freeLists = s.freeLists :=
  rfl

@[simp] theorem totalPages_setMeta :
    (s.setMeta node order flags).totalPages = s.totalPages :=
  rfl

theorem flags_setMeta :
    ((s.setMeta node order flags).pages i).flags =
      if i = node then flags else (s.pages i).flags := by
  by_cases hi : i = node <;> simp [State.setMeta, pages_setPage, hi]

theorem order_setMeta :
    ((s.setMeta node order flags).pages i).order =
      if i = node then uint8 order else (s.pages i).order := by
  by_cases hi : i = node <;> simp [State.setMeta, pages_setPage, hi]

theorem links_listAdd :
    (listAdd s order node).links =
      s.links.pushFront (s.freeLists order) node := by
  cases h : s.freeLists order with
  | none =>
      simp only [listAdd, h, State.links, Links.pushFront, Links.mk.injEq]
      constructor <;> funext j <;> by_cases hj : j = node <;>
        simp [State.setPage, State.setFreeList, hj]
  | some head =>
      simp only [listAdd, h, State.links, Links.pushFront, Links.mk.injEq]
      constructor <;> funext j <;> by_cases hj : j = node <;>
        by_cases hh : j = head <;>
          simp_all [State.setPage, State.setFreeList, Function.update_apply]

theorem freeLists_listAdd :
    (listAdd s order node).freeLists =
      Function.update s.freeLists order (some node) := by
  unfold listAdd
  cases s.freeLists order <;> rfl

@[simp] theorem totalPages_listAdd :
    (listAdd s order node).totalPages = s.totalPages := by
  unfold listAdd
  cases s.freeLists order <;> rfl

@[simp] theorem flags_listAdd :
    ((listAdd s order node).pages i).flags = (s.pages i).flags := by
  cases h : s.freeLists order <;>
    simp only [listAdd, h, State.setFreeList, pages_setPage] <;>
    split_ifs <;> simp_all

@[simp] theorem order_listAdd :
    ((listAdd s order node).pages i).order = (s.pages i).order := by
  cases h : s.freeLists order <;>
    simp only [listAdd, h, State.setFreeList, pages_setPage] <;>
    split_ifs <;> simp_all

theorem links_listRemove :
    (listRemove s order node).links = s.links.unlink node := by
  cases hp : (s.pages node).prev <;> cases hn : (s.pages node).next <;>
    simp only [listRemove, hp, hn, State.links, Links.unlink,
      Links.mk.injEq] <;>
    constructor <;> funext j <;>
    simp only [State.setFreeList, pages_setPage, Function.update_apply] <;>
    split_ifs <;> simp_all

theorem freeLists_listRemove :
    (listRemove s order node).freeLists =
      Function.update s.freeLists order
        (s.links.headAfterUnlink (s.freeLists order) node) := by
  cases hp : (s.pages node).prev <;> cases hn : (s.pages node).next <;>
    simp [listRemove, hp, hn, State.links, Links.headAfterUnlink,
      State.setFreeList, State.setPage]

@[simp] theorem totalPages_listRemove :
    (listRemove s order node).totalPages = s.totalPages := by
  cases hp : (s.pages node).prev <;> cases hn : (s.pages node).next <;>
    simp [listRemove, hp, hn, State.setFreeList, State.setPage]

@[simp] theorem flags_listRemove :
    ((listRemove s order node).pages i).flags = (s.pages i).flags := by
  cases hp : (s.pages node).prev <;> cases hn : (s.pages node).next <;>
    simp only [listRemove, hp, hn, State.setFreeList, pages_setPage] <;>
    split_ifs <;> simp_all

@[simp] theorem order_listRemove :
    ((listRemove s order node).pages i).order = (s.pages i).order := by
  cases hp : (s.pages node).prev <;> cases hn : (s.pages node).next <;>
    simp only [listRemove, hp, hn, State.setFreeList, pages_setPage] <;>
    split_ifs <;> simp_all

end ListHelpers

end BabOs.Pmm
