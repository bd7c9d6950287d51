import SqlFold.Forest.Fingerprint
import SqlFold.Proofs.Store.Coherence
import SqlFold.Proofs.Traversal

/-!
# Asking for fingerprints

`Forest.recalled f r` is what a store says of the fingerprint of a node: what it remembers, or what it
computes from what it says of the sub-nodes. `Forest.fingerprint` answers with it, and the store that
it leaves differs in what it remembers only (`Grounded.fingerprint_run`).

Where what is remembered at and below a node is right (`Forest.Recalls`), the answer is the
fingerprint of the tree (`Grounded.recalled_eq_fingerprint`). In a coherent store this is so for what
is reached, but it may be asked of any node, also of one that was spliced out
(`Coherent.fingerprint_run`).
-/

namespace SqlFold.Forest

/-- What the uppermost `n` levels under a node say of its fingerprint. -/
def recalledWithin (f : Forest) : Nat → NodeRef → Fingerprint
  | 0, r => (Tree.mk r (.root [])).fingerprint
  | n + 1, r => (f.cache? r).getD (.layer ((f.node r).map (recalledWithin f n)))

/-- What a store says of the fingerprint of a node. -/
def recalled (f : Forest) (r : NodeRef) : Fingerprint := f.recalledWithin f.size r

/-- What is remembered at a node and below is right. -/
def Recalls (f : Forest) (r : NodeRef) : Prop :=
  ∀ s, f.Below r s → ∀ p, f.cache? s = some p → p = (f.tree s).fingerprint

/-- The store `g` is `f`, but may remember more of what `f` says of the fingerprints. -/
structure Remembers (f g : Forest) : Prop where
  size : g.size = f.size
  stage : g.stage = f.stage
  source : g.source = f.source
  node : ∀ r, g.node r = f.node r
  parent : ∀ r, g.parent? r = f.parent? r
  cache : ∀ {n r}, f.Shallow n r → g.cache? r = f.cache? r ∨ g.cache? r = some (f.recalledWithin n r)

variable {f g k : Forest} {r : NodeRef}

/-! ## What a store says -/

/-- Looking deeper than there are nodes makes no difference. -/
theorem recalledWithin_eq {n m : Nat} (shallow : f.Shallow n r) (shallow' : f.Shallow m r) :
    f.recalledWithin n r = f.recalledWithin m r := by
  induction n generalizing m r with
  | zero => cases shallow
  | succ n ih =>
    cases m with
    | zero => cases shallow'
    | succ m =>
      rw [recalledWithin, recalledWithin, Node.map_congr fun c hc => ih (shallow c hc) (shallow' c hc)]

/-- What a store says depends on the nodes below and on what is remembered there. -/
theorem recalledWithin_congr (node : ∀ s, f.Below r s → g.node s = f.node s)
    (cache : ∀ s, f.Below r s → g.cache? s = f.cache? s) (n : Nat) :
    g.recalledWithin n r = f.recalledWithin n r := by
  induction n generalizing r with
  | zero => rfl
  | succ n ih =>
    rw [recalledWithin, recalledWithin, node r .refl, cache r .refl, Node.map_congr fun c hc =>
      ih (fun s below => node s (.head hc below)) fun s below => cache s (.head hc below)]

theorem Recalls.below {s : NodeRef} (right : f.Recalls r) (below : f.Below r s) : f.Recalls s :=
  fun t below' => right t (below.trans below')

/-- A store that remembers what is right says what is right. -/
theorem recalledWithin_eq_fingerprint {n : Nat} (shallow : f.Shallow n r) (grounded : f.Grounded r)
    (right : f.Recalls r) : f.recalledWithin n r = (f.tree r).fingerprint := by
  induction n generalizing r with
  | zero => cases shallow
  | succ n ih =>
    rw [recalledWithin]
    cases remembered : f.cache? r with
    | some known => exact right r .refl known remembered
    | none =>
      rw [Option.getD_none, grounded.tree_eq, Tree.fingerprint_mk, Node.map_map]
      exact congrArg Fingerprint.layer (Node.map_congr fun c hc =>
        ih (shallow c hc) (grounded.children c hc) (right.below (.single hc)))

theorem Shallow.mono {n m : Nat} (shallow : f.Shallow n r) (le : n ≤ m) : f.Shallow m r := by
  induction n generalizing m r with
  | zero => cases shallow
  | succ n ih =>
    cases m with
    | zero => omega
    | succ m => exact fun c hc => ih (shallow c hc) (by omega)

namespace Grounded

variable (h : f.Grounded r)

include h

/-- A store that remembers what is right says what is right. -/
theorem recalled_eq_fingerprint (right : f.Recalls r) : f.recalled r = (f.tree r).fingerprint := by
  by_cases nonempty : 0 < f.size
  · exact recalledWithin_eq_fingerprint (h.shallow nonempty) h right
  · rw [recalled, tree, Nat.eq_zero_of_not_pos nonempty]
    rfl

/-- What a store says stays the same in a store that keeps what is below. -/
theorem recalled_congr (nonempty : 0 < f.size) (size : f.size ≤ g.size)
    (node : ∀ s, f.Below r s → g.node s = f.node s)
    (cache : ∀ s, f.Below r s → g.cache? s = f.cache? s) : g.recalled r = f.recalled r := by
  rw [recalled, recalled, recalledWithin_congr node cache]
  exact recalledWithin_eq ((h.shallow nonempty).mono size) (h.shallow nonempty)

end Grounded

theorem Coherent.recalls (h : f.Coherent) (reached : f.Reached r) : f.Recalls r :=
  fun _ below _ remembered => h.cache (reached.below below) remembered

/-! ## Stores that remember more -/

/-- The bound on levels does not depend on what is remembered. -/
theorem Shallow.remembers {n : Nat} (rem : Remembers f g) (shallow : f.Shallow n r) :
    g.Shallow n r := by
  induction n generalizing r with
  | zero => cases shallow
  | succ n ih =>
    intro c hc
    rw [Forest.children, rem.node] at hc
    exact ih (shallow c hc)

namespace Remembers

theorem refl (f : Forest) : Remembers f f :=
  ⟨rfl, rfl, rfl, fun _ => rfl, fun _ => rfl, fun _ => .inl rfl⟩

variable (rem : Remembers f g)

include rem

theorem children (r : NodeRef) : g.children r = f.children r := by
  rw [Forest.children, rem.node, Forest.children]

theorem treeWithin (n : Nat) (r : NodeRef) : g.treeWithin n r = f.treeWithin n r := by
  induction n generalizing r with
  | zero => rfl
  | succ n ih =>
    rw [Forest.treeWithin, Forest.treeWithin, rem.node]
    congr 1
    exact Node.map_congr fun c _ => ih c

/-- Trees do not change. -/
theorem tree (r : NodeRef) : g.tree r = f.tree r := by
  rw [Forest.tree, Forest.tree, rem.size, rem.treeWithin]

/-- What the store says of fingerprints does not change. -/
theorem recalledWithin {n : Nat} (shallow : f.Shallow n r) :
    g.recalledWithin n r = f.recalledWithin n r := by
  induction n generalizing r with
  | zero => cases shallow
  | succ n ih =>
    rcases rem.cache shallow with same | new
    · rw [Forest.recalledWithin, Forest.recalledWithin, rem.node, same,
        Node.map_congr fun c hc => ih (shallow c hc)]
    · rw [Forest.recalledWithin, new]
      rfl

/-- The same nodes are reached. -/
theorem reached : g.Reached r ↔ f.Reached r := by
  constructor
  · rintro ⟨p, path⟩
    induction path with
    | root => exact .root
    | step _ hi ih => exact ih.child (rem.children _ ▸ List.mem_of_getElem? hi)
  · rintro ⟨p, path⟩
    induction path with
    | root => exact .root
    | step _ hi ih => exact ih.child (rem.children _ ▸ List.mem_of_getElem? hi)

theorem trans (rem' : Remembers g k) : Remembers f k where
  size := rem'.size.trans rem.size
  stage := rem'.stage.trans rem.stage
  source := rem'.source.trans rem.source
  node r := (rem'.node r).trans (rem.node r)
  parent r := (rem'.parent r).trans (rem.parent r)
  cache {n r} shallow := by
    rcases rem'.cache (shallow.remembers rem) with same | new
    · rw [same]
      exact rem.cache shallow
    · rw [new, rem.recalledWithin shallow]
      exact .inr rfl

/-- A coherent store stays coherent. -/
theorem coherent (h : f.Coherent) : g.Coherent where
  nonempty := rem.size ▸ h.nonempty
  closed hc := by
    rw [rem.children] at hc
    rw [rem.size]
    exact h.closed hc
  grounded := by
    have same : (fun c q => c ∈ g.children q) = fun c q => c ∈ f.children q := by
      funext c q
      rw [rem.children]
    rw [same]
    exact h.grounded
  root := (rem.parent _).trans h.root
  link reached hc := by
    rw [rem.children] at hc
    rw [rem.parent]
    exact h.link (rem.reached.mp reached) hc
  once reached := by
    rw [rem.children]
    exact h.once (rem.reached.mp reached)
  cache {r p} reached remembered := by
    have old := rem.reached.mp reached
    rw [rem.tree]
    rcases rem.cache (h.shallow r) with same | new
    · exact h.cache old (same.symm.trans remembered)
    · rw [remembered] at new
      exact (Option.some.inj new).trans ((h.grounded_node r).recalled_eq_fingerprint (h.recalls old))

end Remembers

/-! ## Asking -/

/-- Asking for a fingerprint does not fail. -/
theorem fingerprintWithin_total (n : Nat) (r : NodeRef) (f : Forest) :
    ∃ p g, fingerprintWithin n r f = .ok p g := by
  induction n generalizing r f with
  | zero => exact ⟨_, f, rfl⟩
  | succ n ih =>
    rw [fingerprintWithin, get_bind]
    cases remembered : f.cache? r with
    | some known => exact ⟨known, f, rfl⟩
    | none =>
      obtain ⟨m, g, visited, _⟩ := Node.mapM_visits (f.node r) (fun c _ => ih c) f
      dsimp only
      rw [bind_ok visited]
      exact ⟨_, _, rfl⟩

/-- The answer to `fingerprintWithin` is what the store says, level by level. -/
theorem fingerprintWithin_run {n : Nat} (shallow : f.Shallow n r) :
    ∃ g, fingerprintWithin n r f = .ok (f.recalledWithin n r) g ∧ Remembers f g := by
  induction n generalizing r f with
  | zero => cases shallow
  | succ n ih =>
    rw [fingerprintWithin, get_bind]
    cases remembered : f.cache? r with
    | some known =>
      refine ⟨f, ?_, .refl f⟩
      rw [recalledWithin, remembered]
      rfl
    | none =>
      obtain ⟨m, g, visited, visits, shape⟩ :=
        Node.mapM_visits (f.node r) (fun c _ => fingerprintWithin_total n c) f
      -- The sub-nodes are asked in turn, each in the store that the one before left.
      have chain (cs : List NodeRef) (ps : List Fingerprint) (f' g' : Forest)
          (visits : Visits (fingerprintWithin n) cs f' ps g') (rem : Remembers f f')
          (subset : ∀ c ∈ cs, f.Shallow n c) :
          Remembers f g' ∧ List.Forall₂ (fun p c => p = f.recalledWithin n c) ps cs := by
        induction visits with
        | nil => exact ⟨rem, .nil⟩
        | @cons c cs p ps f' f'' g' first _ ihChain =>
          obtain ⟨hc, hcs⟩ := List.forall_mem_cons.mp subset
          obtain ⟨f₁, first', rem'⟩ := ih (hc.remembers rem)
          rw [first'] at first
          cases first
          obtain ⟨rem'', answers⟩ := ihChain (rem.trans rem') hcs
          exact ⟨rem'', .cons (rem.recalledWithin hc) answers⟩
      obtain ⟨rem, answers⟩ := chain _ _ _ _ visits (.refl f) shallow
      have layer : m.map (fun p => p) = (f.node r).map (f.recalledWithin n) :=
        Node.map_eq_map_of_forall₂ shape answers
      have answer : f.recalledWithin (n + 1) r = .layer m := by
        rw [recalledWithin, remembered, ← layer, Node.map_id']
        rfl
      rw [answer]
      dsimp only
      rw [bind_ok visited]
      refine ⟨_, rfl, ⟨?_, ?_, ?_, ?_, ?_, ?_⟩⟩
      · exact (size_withCache ..).trans rem.size
      · exact rem.stage
      · exact rem.source
      · intro s
        exact (node_withCache ..).trans (rem.node s)
      · intro s
        exact (parent?_withCache ..).trans (rem.parent s)
      · intro k s shallow'
        rw [cache?_withCache]
        split
        · next here =>
          obtain ⟨rfl, _⟩ := here
          rw [← answer, recalledWithin_eq shallow shallow']
          exact .inr rfl
        · exact rem.cache shallow'

/-- The answer to `fingerprint` is what the store says. -/
theorem Grounded.fingerprint_run (h : f.Grounded r) :
    ∃ g, fingerprint r f = .ok (f.recalled r) g ∧ Remembers f g := by
  rw [fingerprint, get_bind]
  by_cases nonempty : 0 < f.size
  · exact fingerprintWithin_run (h.shallow nonempty)
  · refine ⟨f, ?_, .refl f⟩
    rw [recalled, Nat.eq_zero_of_not_pos nonempty]
    rfl

/-- A fingerprint can be asked for at any node. For one that is reached the answer is the
fingerprint of its tree. -/
theorem Coherent.fingerprint_run (h : f.Coherent) (r : NodeRef) :
    ∃ p g, fingerprint r f = .ok p g ∧ Remembers f g ∧
      (f.Reached r → p = (f.tree r).fingerprint) := by
  obtain ⟨g, asked, rem⟩ := (h.grounded_node r).fingerprint_run
  exact ⟨_, g, asked, rem, fun reached =>
    (h.grounded_node r).recalled_eq_fingerprint (h.recalls reached)⟩

end SqlFold.Forest
