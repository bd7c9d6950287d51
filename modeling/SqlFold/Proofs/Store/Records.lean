import SqlFold.Proofs.Trees
import SqlFold.Forest.Merge

/-!
# What an edit does to the records

Every edit of a store is read here through the same four views: the number of records, and the node,
the link and the remembered fingerprint of a reference. Later proofs open no edit.
-/

namespace SqlFold.Forest

variable (f : Forest)

/-! ## References without a record -/

theorem record?_eq_none {r : NodeRef} : f.record? r = none ↔ f.size ≤ r.index := by
  simp [record?, size]

/-- A reference without a record lists nothing. -/
theorem node_of_size_le {r : NodeRef} (h : f.size ≤ r.index) : f.node r = .root [] := by
  rw [node, f.record?_eq_none.mpr h]
  rfl

theorem children_of_size_le {r : NodeRef} (h : f.size ≤ r.index) : f.children r = [] := by
  rw [children, f.node_of_size_le h]
  rfl

theorem parent?_of_size_le {r : NodeRef} (h : f.size ≤ r.index) : f.parent? r = none := by
  rw [parent?, f.record?_eq_none.mpr h]
  rfl

theorem cache?_of_size_le {r : NodeRef} (h : f.size ≤ r.index) : f.cache? r = none := by
  rw [cache?, f.record?_eq_none.mpr h]
  rfl

/-- A node that is listed somewhere belongs to a record. -/
theorem lt_size_of_mem_children {r c : NodeRef} (h : c ∈ f.children r) : r.index < f.size := by
  refine Nat.lt_of_not_le fun outside => ?_
  rw [f.children_of_size_le outside] at h
  exact absurd h List.not_mem_nil

theorem mem_children_of_mem_childList {f : Forest} {b c : NodeRef} (hc : c ∈ f.childList b) : c ∈ f.children b := by
  cases branch : (f.node b).branch? with
  | none =>
    rw [childList, branch] at hc
    cases hc
  | some cs =>
    rw [childList, branch] at hc
    rw [children, Node.children_of_branch? branch]
    exact hc

theorem NodeRef.index_eq_iff {r s : NodeRef} : r.index = s.index ↔ r = s := by
  cases r; cases s; simp

/-! ## One record -/

section Modify

variable (r : NodeRef)

theorem record?_modify (g : Record → Record) (s : NodeRef) :
    (f.records.modify r.index g)[s.index]? =
      (f.record? s).map fun rec => if s = r then g rec else rec := by
  simp only [Array.getElem?_modify, NodeRef.index_eq_iff, record?]
  by_cases h : r = s
  · subst h
    simp
  · have h' : ¬s = r := fun eq => h eq.symm
    cases f.records[s.index]? <;> simp [h, h']

@[simp] theorem size_withParent (p : Option NodeRef) : (f.withParent r p).size = f.size := by
  simp [withParent, size]

@[simp] theorem size_withNode (n : Node NodeRef) : (f.withNode r n).size = f.size := by
  simp [withNode, size]

@[simp] theorem size_withCache (c : Option Fingerprint) : (f.withCache r c).size = f.size := by
  simp [withCache, size]

@[simp] theorem node_withParent (p : Option NodeRef) (s : NodeRef) :
    (f.withParent r p).node s = f.node s := by
  simp only [node, withParent, record?, f.record?_modify]
  cases f.records[s.index]? with
  | none => rfl
  | some rec => by_cases h : s = r <;> simp [h]

@[simp] theorem cache?_withParent (p : Option NodeRef) (s : NodeRef) :
    (f.withParent r p).cache? s = f.cache? s := by
  simp only [cache?, withParent, record?, f.record?_modify]
  cases f.records[s.index]? with
  | none => rfl
  | some rec => by_cases h : s = r <;> simp [h]

theorem parent?_withParent (p : Option NodeRef) (s : NodeRef) :
    (f.withParent r p).parent? s = if s = r ∧ s.index < f.size then p else f.parent? s := by
  by_cases inside : s.index < f.size
  · simp only [parent?, withParent, record?, f.record?_modify]
    have : f.records[s.index]? = some f.records[s.index] := Array.getElem?_eq_getElem inside
    by_cases h : s = r
    · subst h
      simp [this, inside]
    · simp [this, h]
  · rw [parent?_of_size_le _ (by simpa using inside), if_neg (fun h => inside h.2),
      parent?_of_size_le _ (by omega)]

theorem node_withNode (n : Node NodeRef) (s : NodeRef) :
    (f.withNode r n).node s = if s = r ∧ s.index < f.size then n else f.node s := by
  by_cases inside : s.index < f.size
  · simp only [node, withNode, record?, f.record?_modify]
    have : f.records[s.index]? = some f.records[s.index] := Array.getElem?_eq_getElem inside
    by_cases h : s = r
    · subst h
      simp [this, inside]
    · simp [this, h]
  · rw [node_of_size_le _ (by simpa using inside), if_neg (fun h => inside h.2),
      node_of_size_le _ (by omega)]

@[simp] theorem parent?_withNode (n : Node NodeRef) (s : NodeRef) :
    (f.withNode r n).parent? s = f.parent? s := by
  simp only [parent?, withNode, record?, f.record?_modify]
  cases f.records[s.index]? with
  | none => rfl
  | some rec => by_cases h : s = r <;> simp [h]

@[simp] theorem cache?_withNode (n : Node NodeRef) (s : NodeRef) :
    (f.withNode r n).cache? s = f.cache? s := by
  simp only [cache?, withNode, record?, f.record?_modify]
  cases f.records[s.index]? with
  | none => rfl
  | some rec => by_cases h : s = r <;> simp [h]

@[simp] theorem node_withCache (c : Option Fingerprint) (s : NodeRef) :
    (f.withCache r c).node s = f.node s := by
  simp only [node, withCache, record?, f.record?_modify]
  cases f.records[s.index]? with
  | none => rfl
  | some rec => by_cases h : s = r <;> simp [h]

@[simp] theorem parent?_withCache (c : Option Fingerprint) (s : NodeRef) :
    (f.withCache r c).parent? s = f.parent? s := by
  simp only [parent?, withCache, record?, f.record?_modify]
  cases f.records[s.index]? with
  | none => rfl
  | some rec => by_cases h : s = r <;> simp [h]

theorem cache?_withCache (c : Option Fingerprint) (s : NodeRef) :
    (f.withCache r c).cache? s = if s = r ∧ s.index < f.size then c else f.cache? s := by
  by_cases inside : s.index < f.size
  · simp only [cache?, withCache, record?, f.record?_modify]
    have : f.records[s.index]? = some f.records[s.index] := Array.getElem?_eq_getElem inside
    by_cases h : s = r
    · subst h
      simp [this, inside]
    · simp [this, h]
  · rw [cache?_of_size_le _ (by simpa using inside), if_neg (fun h => inside h.2),
      cache?_of_size_le _ (by omega)]

@[simp] theorem stage_withParent (p : Option NodeRef) : (f.withParent r p).stage = f.stage := rfl

@[simp] theorem stage_withNode (n : Node NodeRef) : (f.withNode r n).stage = f.stage := rfl

@[simp] theorem stage_withCache (c : Option Fingerprint) : (f.withCache r c).stage = f.stage := rfl

@[simp] theorem source_withParent (p : Option NodeRef) : (f.withParent r p).source = f.source := rfl

@[simp] theorem source_withNode (n : Node NodeRef) : (f.withNode r n).source = f.source := rfl

@[simp] theorem source_withCache (c : Option Fingerprint) :
    (f.withCache r c).source = f.source := rfl

end Modify

/-! ## New records -/

section Inserted

/-- Giving nodes another parent in turn. -/
theorem foldl_withParent (p : Option NodeRef) (cs : List NodeRef) :
    let g := cs.foldl (·.withParent · p) f
    g.size = f.size ∧ (∀ s, g.node s = f.node s) ∧ (∀ s, g.cache? s = f.cache? s) ∧
      g.stage = f.stage ∧ g.source = f.source ∧
      ∀ s, g.parent? s = if s ∈ cs ∧ s.index < f.size then p else f.parent? s := by
  induction cs generalizing f with
  | nil => simp
  | cons c cs ih =>
    obtain ⟨size, node, cache, stage, source, parent⟩ := ih (f.withParent c p)
    refine ⟨by simpa using size, by simpa using node, by simpa using cache, stage, source, ?_⟩
    intro s
    simp only [List.foldl_cons, parent, size_withParent, parent?_withParent, List.mem_cons]
    by_cases h : s = c
    · subst h
      by_cases inside : s.index < f.size <;> simp [inside]
    · simp [h]

variable (n : Node NodeRef)

@[simp] theorem size_inserted : (f.inserted n).size = f.size + 1 := by
  have := (f.foldl_withParent (some ⟨f.size⟩) n.children).1
  simpa [inserted, size] using this

@[simp] theorem stage_inserted : (f.inserted n).stage = f.stage :=
  (f.foldl_withParent (some ⟨f.size⟩) n.children).2.2.2.1

@[simp] theorem source_inserted : (f.inserted n).source = f.source :=
  (f.foldl_withParent (some ⟨f.size⟩) n.children).2.2.2.2.1

/-- The record of a reference after one more record was added at the end. -/
theorem record?_push (rec : Record) (s : NodeRef) :
    (f.records.push rec)[s.index]? = if s.index = f.size then some rec else f.record? s := by
  rw [Array.getElem?_push]
  rfl

theorem node_inserted (s : NodeRef) :
    (f.inserted n).node s = if s.index = f.size then n else f.node s := by
  obtain ⟨size, node, _, _, _, _⟩ := f.foldl_withParent (some ⟨f.size⟩) n.children
  rw [Forest.node, record?, inserted, record?_push, size]
  split
  · rfl
  · exact node s

theorem parent?_inserted (s : NodeRef) :
    (f.inserted n).parent? s =
      if s ∈ n.children ∧ s.index < f.size then some ⟨f.size⟩ else f.parent? s := by
  obtain ⟨size, _, _, _, _, parent⟩ := f.foldl_withParent (some ⟨f.size⟩) n.children
  rw [parent?, record?, inserted, record?_push, size]
  split
  · next h =>
    rw [if_neg (by omega), parent?_of_size_le _ (by omega)]
    rfl
  · exact parent s

@[simp] theorem cache?_inserted (s : NodeRef) : (f.inserted n).cache? s = f.cache? s := by
  obtain ⟨size, _, cache, _, _, _⟩ := f.foldl_withParent (some ⟨f.size⟩) n.children
  rw [cache?, record?, inserted, record?_push, size]
  split
  · next h =>
    rw [cache?_of_size_le _ (by omega)]
    rfl
  · exact cache s

end Inserted

/-! ## Forgotten fingerprints -/

section Forget

theorem foldl_withCache (cs : List NodeRef) :
    let g := cs.foldl (·.withCache · none) f
    g.size = f.size ∧ (∀ s, g.node s = f.node s) ∧ (∀ s, g.parent? s = f.parent? s) ∧
      g.stage = f.stage ∧ g.source = f.source ∧
      ∀ s, g.cache? s = if s ∈ cs then none else f.cache? s := by
  induction cs generalizing f with
  | nil => simp
  | cons c cs ih =>
    obtain ⟨size, node, parent, stage, source, cache⟩ := ih (f.withCache c none)
    refine ⟨by simpa using size, by simpa using node, by simpa using parent, stage, source, ?_⟩
    intro s
    simp only [List.foldl_cons, cache, cache?_withCache, List.mem_cons]
    by_cases h' : s ∈ cs
    · simp [h']
    · by_cases h : s = c
      · subst h
        by_cases inside : s.index < f.size
        · simp [inside]
        · simp [inside, f.cache?_of_size_le (Nat.le_of_not_lt inside)]
      · simp [h, h']

variable (r : NodeRef)

@[simp] theorem size_forget : (f.forget r).size = f.size := (f.foldl_withCache _).1

@[simp] theorem node_forget (s : NodeRef) : (f.forget r).node s = f.node s :=
  (f.foldl_withCache _).2.1 s

@[simp] theorem parent?_forget (s : NodeRef) : (f.forget r).parent? s = f.parent? s :=
  (f.foldl_withCache _).2.2.1 s

@[simp] theorem stage_forget : (f.forget r).stage = f.stage := (f.foldl_withCache _).2.2.2.1

@[simp] theorem source_forget : (f.forget r).source = f.source := (f.foldl_withCache _).2.2.2.2.1

theorem cache?_forget (s : NodeRef) :
    (f.forget r).cache? s = if s = r ∨ s ∈ f.ancestors r then none else f.cache? s := by
  rw [forget, (f.foldl_withCache _).2.2.2.2.2 s]
  simp only [List.mem_cons]

/-- The way up depends on the links on it. -/
theorem ancestorsWithin_congr {g : Forest} {n : Nat} {r : NodeRef}
    (same : ∀ s ∈ r :: f.ancestorsWithin n r, g.parent? s = f.parent? s) :
    g.ancestorsWithin n r = f.ancestorsWithin n r := by
  induction n generalizing r with
  | zero => rfl
  | succ n ih =>
    rw [ancestorsWithin, ancestorsWithin, same r (by simp)]
    cases parent : f.parent? r with
    | none => rfl
    | some p =>
      simp only [ancestorsWithin, parent] at same
      dsimp only
      rw [ih fun s hs => same s (List.mem_cons_of_mem _ hs)]

end Forget

/-! ## Splices -/

section Spliced

theorem foldl_detached (branch : NodeRef) (cs : List NodeRef) :
    let g := cs.foldl (·.detached branch ·) f
    g.size = f.size ∧ (∀ s, g.node s = f.node s) ∧ (∀ s, g.cache? s = f.cache? s) ∧
      g.stage = f.stage ∧ g.source = f.source ∧
      ∀ s, g.parent? s = if s ∈ cs ∧ f.parent? s = some branch then none else f.parent? s := by
  have one (f : Forest) (c : NodeRef) :
      (f.detached branch c).size = f.size ∧ (∀ s, (f.detached branch c).node s = f.node s) ∧
        (∀ s, (f.detached branch c).cache? s = f.cache? s) ∧
        (f.detached branch c).stage = f.stage ∧ (f.detached branch c).source = f.source ∧
        ∀ s, (f.detached branch c).parent? s =
          if s = c ∧ f.parent? s = some branch then none else f.parent? s := by
    unfold detached
    split
    · next h =>
      refine ⟨by simp, by simp, by simp, rfl, rfl, fun s => ?_⟩
      rw [parent?_withParent]
      by_cases eq : s = c
      · subst eq
        have : s.index < f.size := by
          refine Nat.lt_of_not_le fun outside => ?_
          rw [f.parent?_of_size_le outside] at h
          cases h
        simp [this, h]
      · simp [eq]
    · next h =>
      refine ⟨rfl, fun _ => rfl, fun _ => rfl, rfl, rfl, fun s => ?_⟩
      by_cases eq : s = c
      · subst eq
        simp [h]
      · simp [eq]
  induction cs generalizing f with
  | nil => simp
  | cons c cs ih =>
    obtain ⟨size, node, cache, stage, source, parent⟩ := ih (f.detached branch c)
    obtain ⟨size', node', cache', stage', source', parent'⟩ := one f c
    refine ⟨by simpa using size.trans size', fun s => (node s).trans (node' s),
      fun s => (cache s).trans (cache' s), stage.trans stage', source.trans source', fun s => ?_⟩
    simp only [List.foldl_cons, parent, parent', List.mem_cons]
    by_cases h : s = c
    · subst h
      by_cases eq : f.parent? s = some branch <;> simp [eq]
    · simp [h]

variable (branch new : NodeRef) (cs : List NodeRef) (offset length : Nat)

/-- The store right before a splice forgets fingerprints. -/
theorem spliced_eq_forget :
    ∃ g : Forest, f.spliced branch cs offset length new = g.forget branch ∧ g.size = f.size ∧
      (∀ s, g.node s =
        if s = branch ∧ s.index < f.size then
          (f.node branch).withBranch (cs.take offset ++ new :: cs.drop (offset + length))
        else f.node s) ∧
      (∀ s, g.cache? s = f.cache? s) ∧ g.stage = f.stage ∧ g.source = f.source ∧
      ∀ s, g.parent? s =
        if s = new ∧ s.index < f.size then some branch
        else if s ∈ (cs.drop offset).take length ∧ f.parent? s = some branch then none
        else f.parent? s := by
  let g := f.withNode branch
    ((f.node branch).withBranch (cs.take offset ++ new :: cs.drop (offset + length)))
  obtain ⟨size, node, cache, stage, source, parent⟩ :=
    g.foldl_detached branch ((cs.drop offset).take length)
  refine ⟨_, rfl, ?_, fun s => ?_, fun s => ?_, ?_, ?_, fun s => ?_⟩
  · simpa [g] using size
  · rw [node_withParent, node, node_withNode]
  · rw [cache?_withParent, cache, cache?_withNode]
  · simpa [g] using stage
  · simpa [g] using source
  · rw [parent?_withParent, parent, size]
    simp only [g, parent?_withNode, size_withNode]

end Spliced

/-! ## Substitutions -/

/-- The store right before a substitution forgets fingerprints. -/
theorem substituted_eq_forget (parent old new : NodeRef) :
    ∃ g : Forest, f.substituted parent old new = g.forget parent ∧ g.size = f.size ∧
      (∀ s, g.node s =
        if s = parent ∧ s.index < f.size then
          (f.node parent).map fun r => if r = old then new else r
        else f.node s) ∧
      (∀ s, g.cache? s = f.cache? s) ∧ g.stage = f.stage ∧ g.source = f.source ∧
      ∀ s, g.parent? s =
        if s = new ∧ s.index < f.size then some parent
        else if s = old ∧ s.index < f.size then none
        else f.parent? s := by
  refine ⟨_, rfl, by simp, fun s => ?_, fun s => by simp, rfl, rfl, fun s => ?_⟩
  · rw [node_withParent, node_withParent, node_withNode]
  · simp only [parent?_withParent, size_withParent, size_withNode, parent?_withNode]

end SqlFold.Forest
