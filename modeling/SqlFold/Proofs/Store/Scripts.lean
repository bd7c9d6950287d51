import SqlFold.Proofs.Store.Coherence

/-!
# The store of a script

`Forest.ofScript` puts one leaf for every significant token under the root, and nothing else
(`Forest.leafRow_ofScript`). Such a store is coherent.
-/

namespace SqlFold.Forest

variable {f : Forest} {r : NodeRef} {ts : List Token}

/-- The references of the first `n` records behind the root. -/
def firstRefs (n : Nat) : List NodeRef := (List.range n).map fun i => ⟨i + 1⟩

theorem mem_firstRefs {n : Nat} : r ∈ firstRefs n ↔ ∃ i < n, r = ⟨i + 1⟩ := by
  simp [firstRefs, eq_comm]

/-- The store is a root over the leaves of the tokens `ts`, in order, and remembers nothing. -/
structure LeafRow (f : Forest) (ts : List Token) : Prop where
  size : f.size = ts.length + 1
  root : f.node Forest.root = .root (firstRefs ts.length)
  leaf : ∀ {i t}, ts[i]? = some t → f.node ⟨i + 1⟩ = .leaf t
  top : f.parent? Forest.root = none
  link : ∀ {i}, i < ts.length → f.parent? ⟨i + 1⟩ = some Forest.root
  cache : ∀ r, f.cache? r = none

/-- The store before the first token. -/
theorem leafRow_empty (source : String) : LeafRow (empty source) [] where
  size := rfl
  root := rfl
  leaf h := by simp at h
  top := rfl
  link h := absurd h (Nat.not_lt_zero _)
  cache r := by
    rcases r with ⟨_ | i⟩ <;> rfl

theorem firstRefs_succ (n : Nat) : firstRefs (n + 1) = firstRefs n ++ [⟨n + 1⟩] := by
  simp [firstRefs, List.range_succ]

/-- One more token is one more leaf. -/
theorem LeafRow.withLeaf (row : LeafRow f ts) (t : Token) : LeafRow (f.withLeaf t) (ts ++ [t]) := by
  have size := row.size
  let g := (f.inserted (.leaf t)).withParent ⟨f.size⟩ (some Forest.root)
  have sizeG : g.size = f.size + 1 := by simp [g]
  have nodeG (s : NodeRef) : g.node s = if s.index = f.size then .leaf t else f.node s := by
    rw [node_withParent, node_inserted]
  have parentG (s : NodeRef) :
      g.parent? s = if s.index = f.size then some Forest.root else f.parent? s := by
    have inserted : (f.inserted (.leaf t)).parent? s = f.parent? s := by
      rw [parent?_inserted, if_neg (by simp)]
    rw [parent?_withParent, size_inserted, inserted]
    by_cases new : s.index = f.size
    · have eq : s = ⟨f.size⟩ := NodeRef.index_eq_iff.mp new
      rw [if_pos new, if_pos ⟨eq, by omega⟩]
    · rw [if_neg new, if_neg fun h => new (congrArg NodeRef.index h.1)]
  have rootG : g.node Forest.root = .root (firstRefs ts.length) := by
    rw [nodeG, if_neg (by rw [size]; exact Nat.zero_ne_add_one _), row.root]
  have grown : f.withLeaf t = (g.withNode Forest.root (.root (firstRefs (ts.length + 1)))).forget
      Forest.root := by
    have after : (g.node Forest.root).withBranch (g.childList Forest.root ++ [⟨f.size⟩]) =
        .root (firstRefs (ts.length + 1)) := by
      rw [childList, rootG, firstRefs_succ, ← size]
      rfl
    rw [← after]
    rfl
  have node (s : NodeRef) : (f.withLeaf t).node s =
      if s = Forest.root then .root (firstRefs (ts.length + 1)) else g.node s := by
    rw [grown, node_forget, node_withNode]
    by_cases top : s = Forest.root
    · subst top
      rw [if_pos rfl, if_pos ⟨rfl, by rw [sizeG]; exact Nat.succ_pos _⟩]
    · rw [if_neg top, if_neg fun h => top h.1]
  have parent (s : NodeRef) : (f.withLeaf t).parent? s = g.parent? s := by
    rw [grown, parent?_forget, parent?_withNode]
  refine ⟨?_, ?_, fun {i t'} hi => ?_, ?_, fun {i} hi => ?_, fun r => ?_⟩
  · rw [grown, size_forget, size_withNode, sizeG, size, List.length_append]
    rfl
  · rw [node, if_pos rfl, List.length_append]
    rfl
  · rw [node, if_neg (fun eq => by cases eq), nodeG, size]
    rw [List.getElem?_append] at hi
    split at hi
    · next lt =>
      rw [if_neg (by dsimp only; omega), row.leaf hi]
    · next ge =>
      obtain ⟨inside, rfl⟩ := List.getElem?_eq_some_iff.mp hi
      simp only [List.length_singleton] at inside
      rw [if_pos (by dsimp only; omega), List.getElem_singleton]
  · rw [parent, parentG, if_neg (by rw [size]; exact Nat.zero_ne_add_one _), row.top]
  · rw [parent, parentG, size]
    rw [List.length_append, List.length_singleton] at hi
    split
    · rfl
    · next ne =>
      exact row.link (by dsimp only at ne; omega)
  · rw [grown, cache?_forget]
    split
    · rfl
    · rw [cache?_withNode]
      simp [g, row.cache r]

/-- The tokens of a script are the leaves of its store. -/
theorem leafRow_ofScript (script : Script) : LeafRow (ofScript script) script.significant := by
  have each (rest : List Token) {f : Forest} {ts : List Token} (row : LeafRow f ts) :
      LeafRow (rest.foldl withLeaf f) (ts ++ rest) := by
    induction rest generalizing f ts with
    | nil => simpa using row
    | cons t rest ih => simpa using ih (row.withLeaf t)
  have row := each script.significant (leafRow_empty script.source)
  exact ⟨row.size, row.root, row.leaf, row.top, row.link, row.cache⟩

@[simp] theorem stage_ofScript (script : Script) : (ofScript script).stage = .parsing := rfl

@[simp] theorem source_ofScript (script : Script) : (ofScript script).source = script.source := by
  have each (rest : List Token) (f : Forest) : (rest.foldl withLeaf f).source = f.source := by
    induction rest generalizing f with
    | nil => rfl
    | cons t rest ih =>
      rw [List.foldl_cons, ih]
      simp [withLeaf]
  exact each script.significant (empty script.source)

namespace LeafRow

variable (row : LeafRow f ts)

include row

/-- The children of the root. -/
theorem children_root : f.children Forest.root = firstRefs ts.length := by
  rw [children, row.root, Node.children_root]

/-- Only the root lists nodes. -/
theorem eq_root_of_mem_children {q c : NodeRef} (hc : c ∈ f.children q) : q = Forest.root := by
  rcases q with ⟨_ | i⟩
  · rfl
  · have inside := f.lt_size_of_mem_children hc
    rw [row.size] at inside
    have lt : i < ts.length := Nat.lt_of_succ_lt_succ inside
    rw [children, row.leaf (List.getElem?_eq_getElem lt)] at hc
    cases hc

/-- A row of leaves is coherent. -/
theorem coherent : f.Coherent where
  nonempty := by rw [row.size]; exact Nat.succ_pos _
  closed {q c} hc := by
    rw [row.eq_root_of_mem_children hc, row.children_root, mem_firstRefs] at hc
    obtain ⟨i, hi, rfl⟩ := hc
    rw [row.size]
    exact Nat.succ_lt_succ hi
  grounded := by
    refine ⟨fun q => ⟨_, fun c hc => ⟨_, fun d hd => ?_⟩⟩⟩
    have top := row.eq_root_of_mem_children hd
    rw [top, row.eq_root_of_mem_children hc, row.children_root, mem_firstRefs] at hc
    obtain ⟨i, _, eq⟩ := hc
    cases eq
  root := row.top
  link {q c} _ hc := by
    obtain rfl := row.eq_root_of_mem_children hc
    rw [row.children_root, mem_firstRefs] at hc
    obtain ⟨i, hi, rfl⟩ := hc
    exact row.link hi
  once {q} _ := by
    by_cases top : q = Forest.root
    · rw [top, row.children_root]
      exact List.Nodup.map (fun i j eq => by simpa using eq) List.nodup_range
    · rw [List.eq_nil_iff_forall_not_mem.mpr fun c hc => top (row.eq_root_of_mem_children hc)]
      exact .nil
  cache {r p} _ remembered := by
    rw [row.cache] at remembered
    cases remembered

/-- The trees under the root are the tokens. -/
theorem forall₂_leaves :
    List.Forall₂ (fun r t => f.node r = .leaf t) (firstRefs ts.length) ts := by
  rw [List.forall₂_iff_get]
  refine ⟨by simp [firstRefs], fun i h h' => ?_⟩
  simp only [firstRefs, List.get_eq_getElem, List.getElem_map, List.getElem_range]
  exact row.leaf (List.getElem?_eq_getElem h')

end LeafRow

end SqlFold.Forest
