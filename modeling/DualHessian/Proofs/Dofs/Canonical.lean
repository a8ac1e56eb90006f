import DualHessian.Sparse.Pattern
import Mathlib.Data.Finset.Basic
import Mathlib.Data.List.Destutter
import Mathlib.Data.List.Sort
import Mathlib.Order.Interval.Finset.Nat

/-!
# Sets of degrees of freedom as finite sets

A `DofSet` stands for a finite set of indices, and there is one for each set. Here the sets are
compared with listings of indices that promise nothing about themselves: they are sorted, merged and
searched by halving, and the order of their indices is all that makes the search work.

* `bisect` searches a list by halving, and by `bisect_eq_some_iff` it finds what an ascending list
  holds.
* `Listing` has the operations of index sets by sorting, merging and searching, and
  `DofSet.listing` is what it shows of a set.
* `Construction` is a nesting of the ways to make a set, `Construction.members` the finite set that
  it describes. By `Construction.build_of_sound` and `Construction.build_of_not_sound` it makes the
  set that stands for it, or is refused.
* `DofSet.canonical` puts together what holds of index sets.
-/

namespace DualHessian

/-! ## Searching by halving -/

/-- In an ascending list places are ordered as the numbers that stand there. -/
theorem Ascending.lt_iff {is : List Nat} (h : Ascending is) {i j k m : Nat} (hk : is[k]? = some i)
    (hm : is[m]? = some j) : i < j ↔ k < m := by
  obtain ⟨hklt, rfl⟩ := List.getElem?_eq_some_iff.1 hk
  obtain ⟨hmlt, rfl⟩ := List.getElem?_eq_some_iff.1 hm
  have hmono : ∀ {a b : Nat} (ha : a < is.length) (hb : b < is.length), a < b → is[a] < is[b] :=
    fun ha hb hab => List.pairwise_iff_getElem.1 h _ _ ha hb hab
  refine ⟨fun hlt => ?_, hmono hklt hmlt⟩
  rcases Nat.lt_trichotomy k m with hkm | rfl | hmk
  · exact hkm
  · exact absurd hlt (Nat.lt_irrefl _)
  · exact absurd hlt (Nat.lt_asymm (hmono hmlt hklt hmk))

/-- The place among `count` places from `base` on at which a number stands if it stands at one of
them: the upper half of the places is given up if it starts with a larger number, and the lower half
otherwise. -/
def narrow (is : List Nat) (i base count : Nat) : Nat :=
  if 1 < count then
    let half := count / 2
    if i < is.getD (base + half) 0 then narrow is i base (count - half)
    else narrow is i (base + half) (count - half)
  else base
termination_by count
decreasing_by all_goals omega

/-- The place at which a number stands in an ascending list. -/
def bisect (is : List Nat) (i : Nat) : Option Nat :=
  if is[narrow is i 0 is.length]? = some i then some (narrow is i 0 is.length) else none

/-- Bisecting a sorted list finds the place of an index within the part it starts with. -/
theorem narrow_eq {is : List Nat} (h : Ascending is) {i k base count : Nat}
    (hk : is[k]? = some i) (hbase : base ≤ k) (hcount : k < base + count)
    (hlength : base + count ≤ is.length) : narrow is i base count = k := by
  -- The upper half starts behind the place sought if and only if it starts with a larger number.
  have hside : ∀ m < is.length, i < is.getD m 0 ↔ k < m := fun m hm =>
    h.lt_iff hk (by simp [List.getD_eq_getElem?_getD, hm])
  fun_induction narrow is i base count with
  | case1 base count hlt half hlower ih =>
    have hupper : k < base + half := (hside _ (by omega)).1 hlower
    exact ih hbase (by omega) (by omega)
  | case2 base count hlt half hlower ih =>
    have hupper : ¬ k < base + half := mt (hside _ (by omega)).2 hlower
    exact ih (by omega) (by omega) (by omega)
  | case3 base count hlast => omega

/-- Halving finds what an ascending list holds, at its place, and nothing else. -/
theorem bisect_eq_some_iff {is : List Nat} (h : Ascending is) {i k : Nat} :
    bisect is i = some k ↔ is[k]? = some i := by
  constructor
  · intro hfound
    unfold bisect at hfound
    split at hfound
    next hplace => exact Option.some.inj hfound ▸ hplace
    next => cases hfound
  · intro hk
    have hlt : k < is.length := (List.getElem?_eq_some_iff.1 hk).1
    have hplace : narrow is i 0 is.length = k :=
      narrow_eq h hk (Nat.zero_le k) (by omega) (by omega)
    rw [bisect, hplace, if_pos hk]

/-! ## Dropping repetitions -/

private theorem mem_destutter'_ne {i j : Nat} {is : List Nat} (h : i = j ∨ i ∈ is) :
    i ∈ is.destutter' (· ≠ ·) j := by
  induction is generalizing j with
  | nil => simpa using h
  | cons k is ih =>
    by_cases hkeep : j ≠ k
    · rw [List.destutter'_cons_pos _ hkeep, List.mem_cons]
      exact h.imp_right fun hmem => ih (List.mem_cons.1 hmem)
    · -- An entry is dropped only where the same number has just been kept.
      rw [List.destutter'_cons_neg _ hkeep]
      refine ih (h.elim .inl fun hmem => ?_)
      obtain rfl : j = k := not_not.1 hkeep
      exact List.mem_cons.1 hmem

/-- Nothing is lost where only repetitions are dropped. -/
theorem mem_destutter_ne {i : Nat} {is : List Nat} : i ∈ is.destutter (· ≠ ·) ↔ i ∈ is := by
  refine ⟨fun h => (is.destutter_sublist _).subset h, fun h => ?_⟩
  cases is with
  | nil => exact h
  | cons j is => exact mem_destutter'_ne (List.mem_cons.1 h)

/-- In a sorted list repetitions stand side by side, so the list ascends without them. -/
theorem ascending_destutter {is : List Nat} (h : is.Pairwise (· ≤ ·)) :
    Ascending (is.destutter (· ≠ ·)) := by
  have hsorted : (is.destutter (· ≠ ·)).IsChain (· ≤ ·) :=
    (h.sublist (is.destutter_sublist _)).isChain
  have hdistinct : (is.destutter (· ≠ ·)).IsChain (· ≠ ·) := is.isChain_destutter _
  exact (List.isChain_iff_getElem.2 fun k hk =>
    Nat.lt_of_le_of_ne (hsorted.getElem k hk) (hdistinct.getElem k hk)).pairwise

/-- The ascending list is the sorted one without repetitions. -/
theorem ascending_eq_destutter (is : List Nat) :
    ascending is = is.mergeSort.destutter (· ≠ ·) := by
  have hsorted : (is.mergeSort).Pairwise (· ≤ ·) := List.pairwise_mergeSort' (· ≤ ·) is
  refine (ascending_sorted is).eq_of_mem_iff (ascending_destutter hsorted) fun i => ?_
  rw [mem_ascending, mem_destutter_ne, List.mem_mergeSort]

/-- Merging sorted lists gives the merged list without repetitions. -/
theorem mergeAscending_eq_destutter {is js : List Nat} (hi : Ascending is) (hj : Ascending js) :
    mergeAscending is js = (is.merge js).destutter (· ≠ ·) := by
  have hsorted : (is.merge js).Pairwise (· ≤ ·) :=
    (hi.imp fun h => Nat.le_of_lt h).merge (hj.imp fun h => Nat.le_of_lt h)
  refine (mergeAscending_sorted hi hj).eq_of_mem_iff (ascending_destutter hsorted) fun i => ?_
  rw [mem_mergeAscending, mem_destutter_ne, List.mem_merge]

/-! ## Listings -/

/-- The size of an index space and a list of indices, with nothing known about them. -/
structure Listing where
  /-- The size of the index space. -/
  size : Nat
  /-- The indices. -/
  indices : List Nat
deriving DecidableEq

namespace Listing

/-- The indices of a list, sorted and each of them once. -/
def ofList (size : Nat) (is : List Nat) : Except Violation Listing :=
  if is.all fun i => decide (i < size) then .ok ⟨size, is.mergeSort.destutter (· ≠ ·)⟩
  else .error (.indexOutside size)

/-- The indices of two listings merged, each of them once. -/
def union (a b : Listing) : Except Violation Listing :=
  if a.size = b.size then .ok ⟨a.size, (a.indices.merge b.indices).destutter (· ≠ ·)⟩
  else .error .differentSpaces

/-- The place at which an index is found. -/
def position? (a : Listing) (i : Nat) : Option Nat := bisect a.indices i

/-- Whether an index is found. -/
def contains (a : Listing) (i : Nat) : Bool := (a.position? i).isSome

/-- Whether every index of the first listing is found in the second. -/
def isSubset (a b : Listing) : Bool := a.indices.all b.contains

end Listing

namespace DofSet

/-- What a set shows of itself. -/
def listing (s : DofSet) : Listing := ⟨s.size, s.elements⟩

/-- The listing of a set is over the same index space. -/
@[simp] theorem size_listing (s : DofSet) : s.listing.size = s.size := rfl

/-- The listing of a set holds its elements in order. -/
@[simp] theorem indices_listing (s : DofSet) : s.listing.indices = s.elements := rfl

/-- The set of the indices. -/
def toFinset (s : DofSet) : Finset Nat := s.elements.toFinset

/-- The finite set of a set has the same elements. -/
@[simp] theorem mem_toFinset {s : DofSet} {i : Nat} : i ∈ s.toFinset ↔ i ∈ s := List.mem_toFinset

/-- Sets over the same space are equal if they have the same members. -/
theorem ext_mem {s t : DofSet} (hsize : s.size = t.size) (h : ∀ i, i ∈ s ↔ i ∈ t) : s = t := by
  have helements : s.elements = t.elements := s.sorted.eq_of_mem_iff t.sorted h
  cases s
  cases t
  simp only at hsize helements
  subst hsize helements
  rfl

/-- The listing of a list is the listing of its set. -/
theorem listing_ofList (size : Nat) (is : List Nat) :
    Listing.ofList size is = (ofList size is).map listing := by
  unfold Listing.ofList ofList
  by_cases h : ∀ i ∈ is, i < size
  · rw [dif_pos h, if_pos (by simpa using h), ← ascending_eq_destutter]
    rfl
  · rw [dif_neg h, if_neg (by simpa using h)]
    rfl

/-- The union of listings is the listing of the union. -/
theorem listing_union (s t : DofSet) : s.listing.union t.listing = (s.union t).map listing := by
  rw [Listing.union, union, size_listing, size_listing]
  by_cases h : s.size = t.size
  · rw [dif_pos h, if_pos h, indices_listing, indices_listing,
      ← mergeAscending_eq_destutter s.sorted t.sorted]
    rfl
  · rw [dif_neg h, if_neg h]
    rfl

/-- Bisecting the listing finds the place of an index in the set. -/
theorem position?_listing (s : DofSet) (i : Nat) : s.listing.position? i = s.position? i := by
  refine Option.ext fun k => ?_
  rw [Listing.position?, indices_listing, bisect_eq_some_iff s.sorted, position?,
    List.idxOf?_eq_some_iff, List.getElem?_eq_some_iff]
  refine ⟨fun ⟨hk, hi⟩ => ⟨hk, hi, fun j hj hji => ?_⟩, fun ⟨hk, hi, _⟩ => ⟨hk, hi⟩⟩
  -- No index stands at two places.
  have hlt := List.pairwise_iff_getElem.1 s.sorted j k (Nat.lt_trans hj hk) hk hj
  exact Nat.ne_of_lt hlt (hji.trans hi.symm)

/-- An index is found at its place among the elements. -/
theorem position?_eq_some_iff {s : DofSet} {i k : Nat} :
    s.position? i = some k ↔ s.elements[k]? = some i := by
  rw [← position?_listing]
  exact bisect_eq_some_iff s.sorted

/-- An index has a place in a set if it is an element. -/
theorem isSome_position?_iff {s : DofSet} {i : Nat} : (s.position? i).isSome = true ↔ i ∈ s :=
  List.isSome_idxOf?

/-- A listing contains the elements of its set. -/
theorem contains_listing (s : DofSet) (i : Nat) : s.listing.contains i = s.contains i := by
  rw [Listing.contains, position?_listing, Bool.eq_iff_iff, isSome_position?_iff, contains_iff]

/-- Listings are compared as their sets are. -/
theorem isSubset_listing (s t : DofSet) : s.listing.isSubset t.listing = s.isSubset t := by
  have hcontains : t.listing.contains = t.contains := funext (contains_listing t)
  rw [Listing.isSubset, hcontains, indices_listing, isSubset]

/-- Indices that belong to the space make up their finite set. -/
theorem exists_ofList {size : Nat} {is : List Nat} (h : ∀ i ∈ is, i < size) :
    ∃ s, ofList size is = .ok s ∧ s.size = size ∧ s.toFinset = is.toFinset := by
  obtain ⟨s, hs, hsize, hmem⟩ := ofList_ok h
  refine ⟨s, hs, hsize, Finset.ext fun i => ?_⟩
  rw [List.mem_toFinset, ← hmem i, mem_toFinset, mem_elements]

/-- Sets over the same space have a union. -/
theorem union_ok {s t : DofSet} (h : s.size = t.size) :
    ∃ u, s.union t = .ok u ∧ u.size = s.size ∧ ∀ i, i ∈ u ↔ i ∈ s ∨ i ∈ t := by
  rw [union, dif_pos h]
  exact ⟨_, rfl, rfl, fun i => mem_mergeAscending⟩

/-- Sets over different index spaces have no union. -/
theorem union_error {s t : DofSet} (h : s.size ≠ t.size) : s.union t = .error .differentSpaces :=
  dif_neg h

/-- A union is the set of the elements of both. -/
theorem union_eq_ofList {s t : DofSet} (h : s.size = t.size) :
    s.union t = ofList s.size (s.elements ++ t.elements) := by
  have hbounded : ∀ i ∈ s.elements ++ t.elements, i < s.size := fun i hi =>
    (List.mem_append.1 hi).elim (s.bounded i) fun hi => h ▸ t.bounded i hi
  obtain ⟨u, hu, husize, humem⟩ := union_ok h
  obtain ⟨v, hv, hvsize, hvmem⟩ := ofList_ok hbounded
  have huv : u = v := ext_mem (husize.trans hvsize.symm) fun i =>
    (humem i).trans (List.mem_append.symm.trans (hvmem i).symm)
  rw [hu, hv, huv]

end DofSet

/-! ## Ways to make a set -/

/-- A nesting of the ways to make a set. -/
inductive Construction where
  /-- The empty set. -/
  | empty (size : Nat)
  /-- The set of listed indices. -/
  | indices (size : Nat) (is : List Nat)
  /-- The set of the indices from the first one up to the last one, which does not belong to it. -/
  | range (size first last : Nat)
  /-- A union. -/
  | union (a b : Construction)

namespace Construction

/-- The set, or the first mistake met on the way to it. -/
def build : Construction → Except Violation DofSet
  | empty size => .ok (.empty size)
  | indices size is => DofSet.ofList size is
  | range size first last => DofSet.ofRange size first last
  | union a b => do
    let s ← a.build
    let t ← b.build
    s.union t

/-- The listing that sorting and merging leave. -/
def listing : Construction → Except Violation Listing
  | empty size => .ok ⟨size, []⟩
  | indices size is => Listing.ofList size is
  | range size first last => Listing.ofList size (List.range' first (last - first))
  | union a b => do
    let s ← a.listing
    let t ← b.listing
    s.union t

/-- The size of the index space. -/
def space : Construction → Nat
  | empty size => size
  | indices size _ => size
  | range size _ _ => size
  | union a _ => a.space

/-- The finite set that is described. -/
def members : Construction → Finset Nat
  | empty _ => ∅
  | indices _ is => is.toFinset
  | range _ first last => Finset.Ico first last
  | union a b => a.members ∪ b.members

/-- Every index belongs to its index space, and unions are over one space. -/
def Sound : Construction → Prop
  | empty _ => True
  | indices size is => ∀ i ∈ is, i < size
  | range size first last => ∀ i, first ≤ i → i < last → i < size
  | union a b => a.Sound ∧ b.Sound ∧ a.space = b.space

private theorem mem_between {first last i : Nat} :
    i ∈ List.range' first (last - first) ↔ first ≤ i ∧ i < last := by
  rw [List.mem_range'_1]
  omega

/-- Sorting and merging lead to the same sets, and to the same mistakes. -/
theorem listing_eq (c : Construction) : c.listing = c.build.map DofSet.listing := by
  induction c with
  | empty size => rfl
  | indices size is => exact DofSet.listing_ofList size is
  | range size first last => exact DofSet.listing_ofList size _
  | union a b iha ihb =>
    -- Both stop at the first part if it is refused, and then at the second.
    rw [listing, build, iha, ihb]
    cases a.build with
    | error violation => rfl
    | ok s =>
      cases b.build with
      | error violation => rfl
      | ok t => exact DofSet.listing_union s t

/-- What is described soundly is built. -/
theorem build_of_sound {c : Construction} (h : c.Sound) :
    ∃ s, c.build = .ok s ∧ s.size = c.space ∧ s.toFinset = c.members := by
  induction c with
  | empty size => exact ⟨.empty size, rfl, rfl, rfl⟩
  | indices size is => exact DofSet.exists_ofList h
  | range size first last =>
    have hbounded : ∀ i ∈ List.range' first (last - first), i < size := fun i hi =>
      h i (mem_between.1 hi).1 (mem_between.1 hi).2
    obtain ⟨s, hs, hsize, hmem⟩ := DofSet.exists_ofList hbounded
    refine ⟨s, hs, hsize, Finset.ext fun i => ?_⟩
    rw [hmem, List.mem_toFinset, mem_between, members, Finset.mem_Ico]
  | union a b iha ihb =>
    obtain ⟨ha, hb, hspace⟩ := h
    obtain ⟨s, hs, hssize, hsmem⟩ := iha ha
    obtain ⟨t, ht, htsize, htmem⟩ := ihb hb
    obtain ⟨u, hu, husize, humem⟩ := DofSet.union_ok (hssize.trans (hspace.trans htsize.symm))
    refine ⟨u, ?_, husize.trans hssize, Finset.ext fun i => ?_⟩
    · rw [build, hs, ht]
      exact hu
    · rw [members, Finset.mem_union, ← hsmem, ← htmem]
      simp only [DofSet.mem_toFinset, humem]

/-- What is described with a mistake is not built. -/
theorem build_of_not_sound {c : Construction} (h : ¬ c.Sound) :
    ∃ violation, c.build = .error violation := by
  induction c with
  | empty size => exact absurd trivial h
  | indices size is =>
    have houtside : ∃ i ∈ is, size ≤ i := by simpa [Sound] using h
    exact ⟨_, DofSet.ofList_error houtside⟩
  | range size first last =>
    have houtside : ∃ i, first ≤ i ∧ i < last ∧ size ≤ i := by simpa [Sound] using h
    obtain ⟨i, hfirst, hlast, hle⟩ := houtside
    exact ⟨_, DofSet.ofList_error ⟨i, mem_between.2 ⟨hfirst, hlast⟩, hle⟩⟩
  | union a b iha ihb =>
    -- The first part comes first, and the sizes are compared last.
    by_cases ha : a.Sound
    · obtain ⟨s, hs, hssize, _⟩ := build_of_sound ha
      by_cases hb : b.Sound
      · obtain ⟨t, ht, htsize, _⟩ := build_of_sound hb
        have hspace : s.size ≠ t.size := fun hsize =>
          h ⟨ha, hb, hssize.symm.trans (hsize.trans htsize)⟩
        refine ⟨.differentSpaces, ?_⟩
        rw [build, hs, ht]
        exact DofSet.union_error hspace
      · obtain ⟨violation, hviolation⟩ := ihb hb
        refine ⟨violation, ?_⟩
        rw [build, hs, hviolation]
        rfl
    · obtain ⟨violation, hviolation⟩ := iha ha
      refine ⟨violation, ?_⟩
      rw [build, hviolation]
      rfl

end Construction

namespace DofSet

/-- Index sets are the finite sets of indices below a size, and there is one for each of them.

Whatever is built by nesting the ways to make a set, sorting, merging and searching lists would do
as well: the listings that they leave are those of the sets, ascend, and stay below the size. The
set that is described is built, unless there is a mistake in its description. In particular a list
gives the set of its entries, in whatever order and however often they occur, and is refused exactly
if one of them does not belong to the index space; and a union is the set of the elements of both,
refused exactly if the spaces differ. Searching finds the members and nothing else, at their places;
containment is that of sets; and sets over one space are equal if and only if they have the same
members. -/
theorem canonical :
    (∀ c : Construction, c.listing = c.build.map listing ∧
      (∀ l, c.listing = .ok l → Ascending l.indices ∧ ∀ i ∈ l.indices, i < l.size) ∧
      (c.Sound → ∃ s, c.build = .ok s ∧ s.size = c.space ∧ s.toFinset = c.members) ∧
      (¬ c.Sound → ∃ violation, c.build = .error violation)) ∧
    (∀ size is, ((∃ i ∈ is, size ≤ i) ↔ ofList size is = .error (.indexOutside size)) ∧
      ((∀ i ∈ is, i < size) →
        ∃ s, ofList size is = .ok s ∧ s.size = size ∧ s.toFinset = is.toFinset)) ∧
    (∀ (s : DofSet) (i : Nat), s.listing.contains i = s.contains i ∧
      (s.contains i = true ↔ i ∈ s.toFinset) ∧
      s.listing.position? i = s.position? i ∧
      ((s.position? i).isSome = true ↔ i ∈ s.toFinset) ∧
      ∀ k, s.position? i = some k ↔ s.elements[k]? = some i) ∧
    ∀ s t : DofSet, s.listing.isSubset t.listing = s.isSubset t ∧
      (s.isSubset t = true ↔ s.toFinset ⊆ t.toFinset) ∧
      (s.size ≠ t.size ↔ s.union t = .error .differentSpaces) ∧
      (s.size = t.size →
        (∃ u, s.union t = .ok u ∧ ofList s.size (s.elements ++ t.elements) = .ok u) ∧
        (s = t ↔ ∀ i, s.contains i = t.contains i)) := by
  refine ⟨fun c => ?_, fun size is => ?_, fun s i => ?_, fun s t => ?_⟩
  · refine ⟨c.listing_eq, fun l hl => ?_, Construction.build_of_sound,
      Construction.build_of_not_sound⟩
    -- A listing that is left is that of a set, which carries its order and its bound along.
    rw [c.listing_eq] at hl
    cases hs : c.build with
    | error violation =>
      rw [hs] at hl
      cases hl
    | ok s =>
      rw [hs] at hl
      cases hl
      exact ⟨s.sorted, s.bounded⟩
  · refine ⟨⟨ofList_error, fun herror => ?_⟩, exists_ofList⟩
    by_contra houtside
    have hinside : ∀ i ∈ is, i < size := by simpa using houtside
    obtain ⟨s, hs, _⟩ := ofList_ok hinside
    cases hs.symm.trans herror
  · exact ⟨contains_listing s i, contains_iff.trans mem_toFinset.symm, position?_listing s i,
      isSome_position?_iff.trans mem_toFinset.symm, fun k => position?_eq_some_iff⟩
  · have hsubset : s.isSubset t = true ↔ s.toFinset ⊆ t.toFinset := by
      simp only [isSubset_iff, Finset.subset_iff, mem_toFinset]
    refine ⟨isSubset_listing s t, hsubset, ⟨union_error, fun herror hsize => ?_⟩,
      fun hsize => ⟨?_, fun heq i => heq ▸ rfl, fun h => ?_⟩⟩
    · obtain ⟨u, hu, _⟩ := union_ok hsize
      cases hu.symm.trans herror
    · obtain ⟨u, hu, _⟩ := union_ok hsize
      exact ⟨u, hu, union_eq_ofList hsize ▸ hu⟩
    · exact ext_mem hsize fun i => by rw [← contains_iff, ← contains_iff, h i]

end DofSet

end DualHessian
