import DualHessian.Proofs.Dofs.Blocks
import DualHessian.Proofs.Rank.Success
import DualHessian.System.Closures
import Mathlib.Data.List.Sort

/-!
# Values of a distributed vector

What the ranks of a group hold of a global vector, entry by entry.

* `EntriesOf` says that values with their indices are entries of a global vector. Where that is so,
  it does not matter in which order they are looked up or written.
* `LocalVector.ext_get?` says that a local vector is determined by what can be read from it, and
  `LocalVector.get?_ofVector` what can be read from the relevant entries of a global vector.
* `Group.ownersVector` is the global vector that the ranks put together from their owned entries
  (`Group.achieves_ownersVector`), and `Group.view` how each of them sees it. It is the vector that
  they started from if they hold parts of one (`Group.achieves_global`, `Group.view_ofVector`).
* `Group.achieves_dot` is the inner product that they obtain.
-/

namespace DualHessian

variable {α : Type} {n : Nat}

/-! ## Entries of a global vector -/

/-- The values are those of the vector at their indices. -/
def EntriesOf (x : Vector α n) (es : List (Nat × α)) : Prop := ∀ e ∈ es, x[e.1]? = some e.2

namespace EntriesOf

variable {x : Vector α n} {es : List (Nat × α)}

/-- The indices of entries of a vector are below its length. -/
theorem index_lt (h : EntriesOf x es) {e : Nat × α} (he : e ∈ es) : e.1 < n := by
  have hsome : (x[e.1]?).isSome = true := by rw [h e he, Option.isSome_some]
  simpa using hsome

/-- Entries of a vector are looked up in it. -/
theorem lookup (h : EntriesOf x es) (i : Nat) :
    es.lookup i = if i ∈ es.map (·.1) then x[i]? else none := by
  induction es with
  | nil => rfl
  | cons e es ih =>
    have hrest := ih fun e' he' => h e' (List.mem_cons_of_mem e he')
    by_cases hi : i = e.1
    · -- The first entry at an index is found, and others at it have the same value.
      subst hi
      rw [List.lookup_cons, beq_self_eq_true, if_pos (by simp), h e List.mem_cons_self]
    · have hne : (i == e.1) = false := beq_false_of_ne hi
      rw [List.lookup_cons, hne, hrest]
      simp only [List.map_cons, List.mem_cons, hi, false_or]

/-- Writing entries of a vector over another one. -/
theorem getElem?_write (h : EntriesOf x es) (y : Vector α n) (i : Nat) :
    (es.foldl (fun y e => y.setIfInBounds e.1 e.2) y)[i]? =
      if i ∈ es.map (·.1) then x[i]? else y[i]? := by
  induction es generalizing y with
  | nil => rfl
  | cons e es ih =>
    rw [List.foldl_cons, ih fun e' he' => h e' (List.mem_cons_of_mem e he')]
    simp only [List.map_cons, List.mem_cons]
    by_cases hrest : i ∈ es.map (·.1)
    · -- It is written over later.
      rw [if_pos hrest, if_pos (.inr hrest)]
    · by_cases hi : i = e.1
      · subst hi
        have hlt : e.1 < n := h.index_lt List.mem_cons_self
        rw [if_neg hrest, if_pos (.inl rfl), Vector.getElem?_setIfInBounds_self_of_lt hlt,
          h e List.mem_cons_self]
      · rw [if_neg hrest, if_neg (by simp [hi, hrest]),
          Vector.getElem?_setIfInBounds_ne (Ne.symm hi)]

end EntriesOf

namespace LocalVector

variable {p : Partition n}

/-! ## Reading -/

private theorem eq_of_lookup {es es' : List (Nat × α)} (hkeys : es.map (·.1) = es'.map (·.1))
    (hnodup : (es.map (·.1)).Nodup) (h : ∀ i ∈ es.map (·.1), es.lookup i = es'.lookup i) :
    es = es' := by
  induction es generalizing es' with
  | nil => exact (List.map_eq_nil_iff.1 hkeys.symm).symm
  | cons e es ih =>
    obtain ⟨i, x⟩ := e
    cases es' with
    | nil => cases hkeys
    | cons e' es' =>
      obtain ⟨i', x'⟩ := e'
      obtain ⟨hkey, hrest⟩ := List.cons.inj hkeys
      obtain rfl : i = i' := hkey
      obtain ⟨hi, hnodup⟩ := List.nodup_cons.1 hnodup
      have hx : x = x' := by simpa using h i List.mem_cons_self
      have hrest : es = es' := by
        refine ih hrest hnodup fun j hj => ?_
        have hne : (j == i) = false := beq_false_of_ne fun hji => hi (hji ▸ hj)
        simpa [List.lookup_cons, hne] using h j (List.mem_cons_of_mem _ hj)
      rw [hx, hrest]

/-- A local vector is determined by its values at the relevant indices. -/
theorem ext_get? {v w : LocalVector α p} (h : ∀ i ∈ p.relevant, v.get? i = w.get? i) : v = w := by
  have hkeys : v.entries.map (·.1) = w.entries.map (·.1) := by
    rw [map_fst_entries, map_fst_entries]
  have hentries : v.entries = w.entries := by
    refine eq_of_lookup hkeys ?_ fun i hi => ?_
    · rw [map_fst_entries]
      exact p.relevant.sorted.imp fun hlt => Nat.ne_of_lt hlt
    · rw [map_fst_entries] at hi
      exact h i hi
  have hvalues : v.values = w.values := by
    rw [← map_snd_entries, ← map_snd_entries, hentries]
  cases v
  cases w
  simpa using hvalues

/-- The entries of a part of a vector are those that are relevant. -/
theorem entries_ofVector (p : Partition n) (x : Vector α n) :
    (ofVector p x).entries =
      p.relevant.elements.attach.map fun i => (i.1, x.get ⟨i.1, p.lt_of_mem_relevant i.2⟩) := by
  have hkeys : p.relevant.elements = p.relevant.elements.attach.map (·.1) :=
    (List.attach_map_subtype_val _).symm
  unfold entries ofVector
  rw [← List.zip_map', ← hkeys]

/-- A part of a global vector holds entries of it. -/
theorem entriesOf_ofVector (p : Partition n) (x : Vector α n) :
    EntriesOf x (ofVector p x).entries := by
  intro e he
  rw [entries_ofVector] at he
  obtain ⟨i, _, rfl⟩ := List.mem_map.1 he
  exact Vector.getElem?_eq_getElem (p.lt_of_mem_relevant i.2)

/-- A part of a vector has the values of the relevant entries. -/
theorem get?_ofVector (p : Partition n) (x : Vector α n) (i : Nat) :
    (ofVector p x).get? i = if i ∈ p.relevant then x[i]? else none := by
  rw [get?, (entriesOf_ofVector p x).lookup, map_fst_entries]
  rfl

/-- The entries of a global vector can be handed over as a list. -/
theorem ofList_toList (p : Partition n) (x : Vector α n) :
    ofList p x.toList = .ok (ofVector p x) := by
  rw [ofList, dif_pos (by simp)]
  rfl

/-! ## Writing -/

/-- A change of the values of a part is that of the global vector. -/
theorem mapEntries_ofVector (f : Nat → α → α) (x : Vector α n) :
    (ofVector p x).mapEntries f = ofVector p (x.mapIdx f) := by
  apply ext_get?
  intro i hi
  rw [get?_mapEntries, get?_ofVector, get?_ofVector, if_pos hi, if_pos hi, Vector.getElem?_mapIdx]

/-- Setting values one after the other: the last value set at an index counts. -/
theorem get?_setAll (v : LocalVector α p) (pairs : List (Nat × α)) (i : Nat) :
    (v.setAll pairs).get? i = (v.get? i).map fun x => (pairs.reverse.lookup i).getD x := by
  induction pairs generalizing v with
  | nil => simp [setAll]
  | cons e pairs ih =>
    have hstep : v.setAll (e :: pairs) = (v.set e.1 e.2).setAll pairs := rfl
    rw [hstep, ih, set, get?_modify, Option.map_map]
    refine congrArg (Option.map · (v.get? i)) (funext fun x => ?_)
    rw [List.reverse_cons, List.lookup_append]
    -- The pairs behind the first one count more than it does.
    cases pairs.reverse.lookup i with
    | some y => rfl
    | none =>
      obtain ⟨j, y⟩ := e
      by_cases hi : i = j
      · simp [hi]
      · simp [hi, List.lookup_cons, beq_false_of_ne hi]

/-- Every local vector is a part of a global one, of which the other entries may be any. -/
theorem exists_eq_ofVector (v : LocalVector α p) (x : Vector α n) :
    ∃ y, v = ofVector p y ∧ ∀ i, i ∉ p.relevant → y[i]? = x[i]? := by
  refine ⟨x.mapIdx fun i a => (v.get? i).getD a, ext_get? fun i hi => ?_, fun i hi => ?_⟩
  · obtain ⟨a, ha⟩ := Option.isSome_iff_exists.1 (isSome_get?_iff (v := v).2 hi)
    have hlt : i < n := p.lt_of_mem_relevant hi
    simp [get?_ofVector, hi, ha, Vector.getElem?_eq_getElem hlt]
  · have hnone : v.get? i = none :=
      Option.not_isSome_iff_eq_none.1 fun hsome => hi (isSome_get?_iff.1 hsome)
    simp [hnone]

/-- Where a rank has copies, they are laid over the global vector. -/
theorem getElem?_overlay (v : LocalVector α p) (x : Vector α n) (i : Nat) :
    (v.overlay x)[i]? = if i ∈ p.relevant then v.get? i else x[i]? := by
  obtain ⟨y, rfl, -⟩ := v.exists_eq_ofVector x
  rw [get?_ofVector, overlay, (entriesOf_ofVector p y).getElem?_write x i, map_fst_entries]
  by_cases hi : i ∈ p.relevant
  · rw [if_pos (DofSet.mem_elements.2 hi), if_pos hi, if_pos hi]
  · rw [if_neg (mt DofSet.mem_elements.1 hi), if_neg hi]

/-- A global vector is not changed by parts of it. -/
theorem overlay_ofVector (p : Partition n) (x : Vector α n) : (ofVector p x).overlay x = x := by
  ext i hi
  have hread : ((ofVector p x).overlay x)[i]? = x[i]? := by
    rw [getElem?_overlay, get?_ofVector]
    split_ifs <;> rfl
  rw [Vector.getElem?_eq_getElem hi, Vector.getElem?_eq_getElem hi] at hread
  exact Option.some.inj hread

/-- The owned entries are those of the owned indices. -/
theorem mem_ownedEntries {v : LocalVector α p} {i : Nat} :
    i ∈ v.ownedEntries.map (·.1) ↔ i ∈ p.owned := by
  constructor
  · intro h
    obtain ⟨e, he, rfl⟩ := List.mem_map.1 h
    exact Partition.owns_iff.1 (List.mem_filter.1 he).2
  · intro h
    have hmem : i ∈ v.entries.map (·.1) := by
      rw [map_fst_entries]
      exact p.owned_subset i h
    obtain ⟨e, he, rfl⟩ := List.mem_map.1 hmem
    exact List.mem_map.2 ⟨e, List.mem_filter.2 ⟨he, Partition.owns_iff.2 h⟩, rfl⟩

/-- The owned entries of a part of a vector are entries of that vector. -/
theorem entriesOf_ownedEntries (p : Partition n) (x : Vector α n) :
    EntriesOf x (ofVector p x).ownedEntries :=
  fun e he => entriesOf_ofVector p x e (List.mem_filter.1 he).1

/-- The owned entries are those of a global vector if and only if they can be read from it. -/
theorem entriesOf_ownedEntries_iff {v : LocalVector α p} {x : Vector α n} :
    EntriesOf x v.ownedEntries ↔ ∀ i ∈ p.owned, x[i]? = v.get? i := by
  obtain ⟨y, rfl, -⟩ := v.exists_eq_ofVector x
  have hread : ∀ i ∈ p.owned, (ofVector p y).get? i = y[i]? := fun i hi => by
    rw [get?_ofVector, if_pos (p.owned_subset i hi)]
  constructor
  · intro h i hi
    obtain ⟨e, he, rfl⟩ := List.mem_map.1 (mem_ownedEntries (v := ofVector p y).2 hi)
    rw [hread e.1 hi, h e he, entriesOf_ownedEntries p y e he]
  · intro h e he
    have hi : e.1 ∈ p.owned := mem_ownedEntries.1 (List.mem_map.2 ⟨e, he, rfl⟩)
    rw [h e.1 hi, hread e.1 hi, entriesOf_ownedEntries p y e he]

/-! ## Products -/

/-- The entries are known from the values of the relevant indices. -/
theorem entries_eq_map {v : LocalVector α p} {f : Nat → α}
    (h : ∀ i ∈ p.relevant, v.get? i = some (f i)) :
    v.entries = p.relevant.elements.map fun i => (i, f i) := by
  have hv : v = ofVector p (.ofFn fun i => f i) := by
    refine ext_get? fun i hi => ?_
    rw [h i hi, get?_ofVector, if_pos hi, Vector.getElem?_eq_getElem (p.lt_of_mem_relevant hi),
      Vector.getElem_ofFn]
  rw [hv, entries_ofVector]
  refine Eq.trans (List.map_congr_left fun i _ => ?_) (List.attach_map_val (f := fun i => (i, f i)))
  exact congrArg (Prod.mk i.1) (Vector.getElem_ofFn _)

/-- So are the values. -/
theorem values_eq_map {v : LocalVector α p} {f : Nat → α}
    (h : ∀ i ∈ p.relevant, v.get? i = some (f i)) : v.values = p.relevant.elements.map f := by
  rw [← map_snd_entries, entries_eq_map h, List.map_map]
  rfl

/-- The relevant indices that are owned are the owned ones, in the same order. -/
theorem filter_owns (p : Partition n) : p.relevant.elements.filter p.owns = p.owned.elements := by
  refine (p.relevant.sorted.filter _).eq_of_mem_iff p.owned.sorted fun i => ?_
  rw [List.mem_filter, Partition.owns_iff]
  exact ⟨fun h => h.2, fun h => ⟨p.owned_subset i h, h⟩⟩

/-- A rank's share of an inner product: each owned index counts once, and copies do not count. -/
theorem dotShare_eq [Arithmetic α] {v w : LocalVector α p} {f g : Nat → α}
    (hv : ∀ i ∈ p.owned, v.get? i = some (f i)) (hw : ∀ i ∈ p.owned, w.get? i = some (g i)) :
    v.dotShare w = signedSumOf (p.owned.elements.map fun i => f i * g i) := by
  -- Where the rank has copies, they take the place of the given values.
  have hread : ∀ (u : LocalVector α p) (h : Nat → α),
      ∀ i ∈ p.relevant, u.get? i = some ((u.get? i).getD (h i)) := by
    intro u h i hi
    obtain ⟨x, hx⟩ := Option.isSome_iff_exists.1 (isSome_get?_iff (v := u).2 hi)
    rw [hx, Option.getD_some]
  have hproducts : ((v.entries.zip w.values).filter fun e => p.owns e.1.1).map
      (fun e => e.1.2 * e.2) = p.owned.elements.map fun i => f i * g i := by
    rw [entries_eq_map (hread v f), values_eq_map (hread w g), List.zip_map', List.filter_map,
      List.map_map, ← filter_owns p]
    refine List.map_congr_left fun i hi => ?_
    have howned : i ∈ p.owned := Partition.owns_iff.1 (List.mem_filter.1 hi).2
    simp [hv i howned, hw i howned]
  rw [dotShare, hproducts]

end LocalVector

/-! ## Groups -/

/-- Values from which all ranks together know every entry make up the global vector. -/
theorem LocalVector.assembleVector_eq [Arithmetic α] {x : Vector α n}
    {parts : List (List (Nat × α))} (h : EntriesOf x parts.flatten)
    (hall : ∀ i < n, i ∈ parts.flatten.map (·.1)) : assembleVector n parts = x := by
  ext i hi
  have hread := h.getElem?_write (.replicate n 0) i
  rw [if_pos (hall i hi), List.foldl_flatten, Vector.getElem?_eq_getElem hi,
    Vector.getElem?_eq_getElem hi] at hread
  exact Option.some.inj hread

namespace Group

variable [Arithmetic α] {P : Interface} {size : Nat} {p : Fin size → Partition n}
  {R : Replies P size}

/-- The global vector of the values that the owners hold. -/
def ownersVector (v : (r : Fin size) → LocalVector α (p r)) : Vector α n :=
  LocalVector.assembleVector n (List.ofFn fun r => (v r).ownedEntries)

omit [Arithmetic α] in
/-- All that is gathered from the owners is owned by one of the ranks. -/
theorem mem_flatten_ownedEntries {v : (r : Fin size) → LocalVector α (p r)}
    {e : Nat × α} : e ∈ (List.ofFn fun r => (v r).ownedEntries).flatten ↔
      ∃ r, e ∈ (v r).ownedEntries := by
  constructor
  · intro he
    obtain ⟨l, hl, he⟩ := List.mem_flatten.1 he
    obtain ⟨r, rfl⟩ := (List.mem_ofFn' _ l).1 hl
    exact ⟨r, he⟩
  · rintro ⟨r, he⟩
    exact List.mem_flatten.2 ⟨_, (List.mem_ofFn' _ _).2 ⟨r, rfl⟩, he⟩

omit [Arithmetic α] in
private theorem entriesOf_flatten {x : Vector α n} {v : (r : Fin size) → LocalVector α (p r)}
    (h : ∀ r, EntriesOf x (v r).ownedEntries) :
    EntriesOf x (List.ofFn fun r => (v r).ownedEntries).flatten := by
  intro e he
  obtain ⟨r, he⟩ := mem_flatten_ownedEntries.1 he
  exact h r e he

/-- Ranks that divide a vector gather that vector from the owners. -/
theorem ownersVector_eq (hdivide : Partition.Divide p) {x : Vector α n}
    {v : (r : Fin size) → LocalVector α (p r)} (h : ∀ r, EntriesOf x (v r).ownedEntries) :
    ownersVector v = x := by
  refine LocalVector.assembleVector_eq (entriesOf_flatten h) fun i hi => ?_
  -- The owner of an index sends its entry.
  obtain ⟨r, hr, _⟩ := hdivide i hi
  obtain ⟨e, he, rfl⟩ := List.mem_map.1 (LocalVector.mem_ownedEntries (v := v r).2 hr)
  exact List.mem_map.2 ⟨e, mem_flatten_ownedEntries.2 ⟨r, he⟩, rfl⟩

omit [Arithmetic α] in
/-- Whatever the ranks hold, what they own makes up one global vector. -/
private theorem exists_entriesOf (hdivide : Partition.Divide p)
    (v : (r : Fin size) → LocalVector α (p r)) :
    ∃ x : Vector α n, ∀ r, EntriesOf x (v r).ownedEntries := by
  choose owner howner hunique using fun i : Fin n => hdivide i.1 i.2
  have hread : ∀ i : Fin n, ((v (owner i)).get? i.1).isSome = true := fun i =>
    LocalVector.isSome_get?_iff.2 ((p _).owned_subset _ (howner i))
  refine ⟨Vector.ofFn fun i => ((v (owner i)).get? i.1).get (hread i), fun r => ?_⟩
  refine LocalVector.entriesOf_ownedEntries_iff.2 fun i hi => ?_
  have hlt : i < n := (p r).lt_of_mem_owned hi
  have hr : r = owner ⟨i, hlt⟩ := hunique ⟨i, hlt⟩ r hi
  subst hr
  simp [hlt]

/-- The owners' values are those that the owners hold. -/
theorem getElem?_ownersVector (hdivide : Partition.Divide p)
    (v : (r : Fin size) → LocalVector α (p r)) {r : Fin size} {i : Nat} (hi : i ∈ (p r).owned) :
    (ownersVector v)[i]? = (v r).get? i := by
  obtain ⟨x, hx⟩ := exists_entriesOf hdivide v
  rw [ownersVector_eq hdivide hx]
  exact LocalVector.entriesOf_ownedEntries_iff.1 (hx r) i hi

/-- The parts of a vector are put together to that vector. -/
theorem ownersVector_ofVector (hdivide : Partition.Divide p) (x : Vector α n) :
    ownersVector (fun r => LocalVector.ofVector (p r) x) = x :=
  ownersVector_eq hdivide fun r => LocalVector.entriesOf_ownedEntries (p r) x

/-- Ranks that divide the degrees of freedom put the owners' values together. -/
theorem achieves_ownersVector (hdivide : Partition.Divide p)
    (v : (r : Fin size) → LocalVector α (p r)) :
    Achieves R (fun b => b = fun _ => ownersVector v) fun r =>
      ((v r).global : Task α P (Vector α n)) := by
  obtain ⟨x, hx⟩ := exists_entriesOf hdivide v
  have hinside : (List.ofFn fun r => (v r).ownedEntries).flatten.all
      (fun e => decide (e.1 < n)) = true :=
    List.all_eq_true.2 fun e he => decide_eq_true ((entriesOf_flatten hx).index_lt he)
  refine (achieves_gatherAll .pairs fun r => (v r).ownedEntries).andThen _ ?_
  rintro _ rfl
  exact .of_eq_pure (fun r => if_pos hinside) rfl

/-- Ranks that own the entries of one global vector put it together again. -/
theorem achieves_global (hdivide : Partition.Divide p) {x : Vector α n}
    {v : (r : Fin size) → LocalVector α (p r)} (h : ∀ r, EntriesOf x (v r).ownedEntries) :
    Achieves R (fun b => b = fun _ => x) fun r => ((v r).global : Task α P (Vector α n)) :=
  ownersVector_eq hdivide h ▸ achieves_ownersVector hdivide v

/-- The global vector as each rank sees it: its own copies where it has them, the owners' values
elsewhere. -/
def view (v : (r : Fin size) → LocalVector α (p r)) (r : Fin size) : Vector α n :=
  (v r).overlay (ownersVector v)

/-- A rank sees its own copy of what is relevant to it, and the value of the owner elsewhere. -/
theorem getElem?_view (hdivide : Partition.Divide p) (v : (r : Fin size) → LocalVector α (p r))
    (r : Fin size) {s : Fin size} {i : Nat} (hi : i ∈ (p s).owned) :
    (view v r)[i]? = if i ∈ (p r).relevant then (v r).get? i else (v s).get? i := by
  rw [view, LocalVector.getElem?_overlay, getElem?_ownersVector hdivide v hi]

/-- All ranks see a global vector of which they hold the parts. -/
theorem view_ofVector (hdivide : Partition.Divide p) (x : Vector α n) :
    view (fun r => LocalVector.ofVector (p r) x) = fun _ => x := by
  funext r
  rw [view, ownersVector_ofVector hdivide x, LocalVector.overlay_ofVector]

/-- The inner product of two global vectors, of which the ranks may see the first one differently:
the shares of the ranks, added in their order. -/
def product (p : Fin size → Partition n) (x : Fin size → Vector α n) (y : Vector α n) : α :=
  signedSumOf (List.ofFn fun r => (LocalVector.ofVector (p r) (x r)).dotShare (.ofVector (p r) y))

/-- All ranks get the sum of the shares in rank order. -/
theorem achieves_dot (v w : (r : Fin size) → LocalVector α (p r)) :
    Achieves R (fun b => b = fun _ => signedSumOf (List.ofFn fun r => (v r).dotShare (w r)))
      fun r => ((v r).dot (w r) : Task α P α) := by
  have hagrees : ∀ r, (p r).agrees (p r) = true := fun r => Partition.agrees_iff.2 rfl
  unfold LocalVector.dot
  simp only [hagrees, if_true]
  exact achieves_sumOverRanks _

end Group

end DualHessian
