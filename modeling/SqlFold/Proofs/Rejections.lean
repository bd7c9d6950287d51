import SqlFold.Proofs.Hashes
import SqlFold.Proofs.Histories

/-!
# Rejected merges

A merge is rejected before it starts if the clauses are not of one kind that can be merged. Otherwise it makes the
merged clause, and at the very end puts it in the place of the first one if this has a link. In a store that still
waits for tokens this fails. What was made until then stays, and the sub-nodes of the first clause have new parents
(`Forest.Dispossessed`).

`History.merge_rejected` says that nothing else has happened: what stands under the nodes that were there is what
stood there, and asking for its hash gives what it gave. In the parsing stage a rejected merge changes nothing.
-/

namespace SqlFold

open Forest

variable {f g : Forest} {this other r s p : NodeRef} {v : Violation}

namespace Forest

/-! ## The way up -/

/-- A way up that ends within `n` steps passes the parent of every node on it. -/
theorem mem_ancestorsWithin_of_short {n : Nat} (short : (f.ancestorsWithin n r).length < n)
    (above : s ∈ r :: f.ancestorsWithin n r) (link : f.parent? s = some p) : p ∈ f.ancestorsWithin n r := by
  induction n generalizing r with
  | zero => omega
  | succ n ih =>
    rw [ancestorsWithin] at short above ⊢
    rcases List.mem_cons.mp above with rfl | above
    · rw [link]
      exact List.mem_cons_self
    · cases first : f.parent? r with
      | none => simp [first] at above
      | some q =>
        rw [first] at short above
        exact List.mem_cons_of_mem _ (ih (by simpa using short) above)

/-- Only nodes that are there stand on a way up. -/
theorem Linked.ancestors_inside (linked : f.Linked) {n : Nat} (above : s ∈ f.ancestorsWithin n r) : s.index < f.size := by
  induction n generalizing r with
  | zero => cases above
  | succ n ih =>
    rw [ancestorsWithin] at above
    cases link : f.parent? r with
    | none => simp [link] at above
    | some p =>
      rw [link] at above
      rcases List.mem_cons.mp above with rfl | above
      · exact linked.inside link
      · exact ih above

/-- At the top of a way up of `n` steps stands a node with at least `n` levels. -/
theorem Linked.exists_top (linked : f.Linked) {n : Nat} (long : n ≤ (f.ancestorsWithin n r).length) :
    ∃ p, ∀ m, f.Shallow (m + n) p → f.Shallow m r := by
  induction n generalizing r with
  | zero => exact ⟨r, fun m shallow => shallow⟩
  | succ n ih =>
    rw [ancestorsWithin] at long
    cases link : f.parent? r with
    | none => simp [link] at long
    | some q =>
      rw [link] at long
      obtain ⟨p, top⟩ := ih (r := q) (by simpa using long)
      -- The node `q` lists `r`, so it has one level more.
      refine ⟨p, fun m shallow => top (m + 1) ?_ r (linked.listed r q link)⟩
      rwa [Nat.add_right_comm]

/-- In a store that waits for tokens every way up ends. -/
theorem Linked.ancestors_short (linked : f.Linked) (lexing : f.stage = .lexing) (r : NodeRef) :
    (f.ancestors r).length < f.size := by
  by_contra long
  obtain ⟨p, top⟩ := linked.exists_top (Nat.le_of_not_lt long)
  have shallow : f.Shallow f.size p := (linked.grounded lexing p).shallow linked.nonempty
  exact top 0 (by rwa [Nat.zero_add])

/-! ## What a failed replacement leaves -/

/-- The store `g` has more nodes than `f`, and the sub-nodes of `this` have new ones for parents. The nodes of `f` are
what they were, and so are the other links. -/
structure Dispossessed (f g : Forest) (this : NodeRef) : Prop where
  size : f.size ≤ g.size
  node : ∀ r : NodeRef, r.index < f.size → g.node r = f.node r
  cache : ∀ r, g.cache? r = f.cache? r
  taken : ∀ r ∈ f.children this, ∃ p, g.parent? r = some p ∧ f.size ≤ p.index
  parent : ∀ r : NodeRef, r.index < f.size → r ∉ f.children this → g.parent? r = f.parent? r

/-- The merged clause takes sub-nodes over as soon as it is in the store. -/
theorem Merged.dispossessed {m : Node NodeRef} (merged : Merged f g this m)
    (inside : ∀ c ∈ f.children this, c.index < f.size) : Dispossessed f (g.inserted m) this := by
  have size := merged.grown.size
  refine ⟨by rw [size_inserted]; omega, fun r old => ?_, fun r => ?_, fun r listed => ?_,
    fun r old apart => merged.parent?_inserted old apart⟩
  · rw [node_inserted, if_neg (by omega), merged.grown.node old]
  · rw [cache?_inserted, merged.grown.cache]
  · rw [Forest.parent?_inserted]
    -- A condition is listed by the new conjunction, the items of a list by the merged clause itself.
    by_cases sub : r ∈ m.children
    · exact ⟨⟨g.size⟩, if_pos ⟨sub, Nat.lt_of_lt_of_le (inside r listed) size⟩, size⟩
    · obtain ⟨q, new, here⟩ := (merged.taken r listed).resolve_left sub
      exact ⟨q, by rw [if_neg fun both => sub both.1, merged.grown.link new r here], new⟩

/-- What the node `r` of the store `f` has kept in the store `g`, where the sub-nodes of `this` have new parents. -/
structure Kept (H : List UInt8 → UInt64) (f g : Forest) (this r : NodeRef) : Prop where
  children : g.children r = f.children r
  text : g.render r = f.render r
  outline : g.outline r = f.outline r
  hash : ∃ x f' g', f.hash H r = .ok x f' ∧ g.hash H r = .ok x g'
  parent : g.parent? r = f.parent? r ↔ r ∉ f.children this
  ancestors : g.ancestors r = f.ancestors r ↔ ∀ s ∈ r :: f.ancestors r, s ∉ f.children this

namespace Dispossessed

variable (left : Dispossessed f g this) (linked : f.Linked)

include left linked

/-- The new parent of a sub-node is not its old one. -/
theorem parent_ne (listed : r ∈ f.children this) : g.parent? r ≠ f.parent? r := by
  intro same
  obtain ⟨p, link, new⟩ := left.taken r listed
  exact absurd (linked.inside (same ▸ link)) (Nat.not_lt.mpr new)

/-- The way up from a node is the old one if it leads past no sub-node of the clause. -/
theorem ancestors_iff (lexing : f.stage = .lexing) (old : r.index < f.size) :
    g.ancestors r = f.ancestors r ↔ ∀ s ∈ r :: f.ancestors r, s ∉ f.children this := by
  have short : (f.ancestors r).length < f.size := linked.ancestors_short lexing r
  constructor
  · -- Past a sub-node of the clause the way leads to a node that was not there.
    intro same s above listed
    obtain ⟨p, link, new⟩ := left.taken s listed
    have shortG : (g.ancestors r).length < g.size := by
      rw [same]
      exact Nat.lt_of_lt_of_le short left.size
    rw [← same] at above
    have passed : p ∈ g.ancestors r := mem_ancestorsWithin_of_short shortG above link
    rw [same] at passed
    exact absurd (linked.ancestors_inside passed) (Nat.not_lt.mpr new)
  · -- Past other nodes it leads where it led, and it ends before the new store could make it longer.
    intro apart
    have inside : ∀ s ∈ r :: f.ancestors r, s.index < f.size :=
      List.forall_mem_cons.mpr ⟨old, fun s above => linked.ancestors_inside above⟩
    have same : g.ancestorsWithin f.size r = f.ancestors r :=
      f.ancestorsWithin_congr fun s above => left.parent s (inside s above) (apart s above)
    rw [Forest.ancestors, ancestorsWithin_of_short (same ▸ short) left.size, same]

/-- What stands under a node is what stood there. -/
theorem kept (H : List UInt8 → UInt64) (lexing : f.stage = .lexing) (old : r.index < f.size) : Kept H f g this r := by
  have grounded : f.Grounded r := linked.grounded lexing r
  -- Old nodes list old nodes, so nothing below `r` has changed and no fingerprint there was forgotten.
  have inside {s : NodeRef} (below : f.Below r s) : s.index < f.size := grounded.lt_size_of_below old below
  have node : ∀ s, f.Below r s → g.node s = f.node s := fun s below => left.node s (inside below)
  have tree : g.tree r = f.tree r := grounded.tree_congr left.size node
  refine ⟨?_, ?_, ?_, ?_, ⟨fun same listed => left.parent_ne linked listed same, left.parent r old⟩,
    left.ancestors_iff linked lexing old⟩
  · rw [children, left.node r old, children]
  · rw [render, tree, render]
  · rw [outline, tree, outline]
  · obtain ⟨f', asked, -⟩ := grounded.hash_run H
    obtain ⟨g', asked', -⟩ := (grounded.congr left.size node).hash_run H
    rw [grounded.recalled_congr linked.nonempty left.size node fun s _ => left.cache s] at asked'
    exact ⟨_, f', g', asked, asked'⟩

end Dispossessed

/-- A merge that is rejected changes nothing, or fails to replace a clause with a link while the store waits for tokens. -/
theorem Linked.merge_failed (linked : f.Linked) (failed : f.merge this other = .error v g) :
    g = f ∨ f.stage = .lexing ∧ (f.parent? this).isSome ∧ (∃ operation, v = .wrongStage operation .lexing) ∧
      Dispossessed f g this := by
  rcases linked.merge_cases this other with ⟨_, _, run, _⟩ | run | ⟨lexing, link, m, k, operation, merged, _, run⟩ <;>
    rw [run] at failed <;> cases failed
  · exact .inl rfl
  · exact .inr ⟨lexing, link, ⟨operation, rfl⟩, merged.dispossessed (linked.closed this)⟩

end Forest

/-- A rejected merge changes nothing in the parsing stage, for a clause without a link, and where the clauses are not of
one kind that can be merged. Otherwise the store waits for tokens, the replacement of the clause has failed, and the
sub-nodes of the clause have new parents. Everything else that can be seen of a node is as it was. -/
theorem History.merge_rejected (H : List UInt8 → UInt64) (history : History f) (failed : f.merge this other = .error v g) :
    g = f ∨ f.stage = .lexing ∧ (f.parent? this).isSome ∧ (∃ operation, v = .wrongStage operation .lexing) ∧
      ∀ r, r.index < f.size → Kept H f g this r := by
  refine (history.linked.merge_failed failed).imp_right fun ⟨lexing, link, operation, left⟩ => ?_
  exact ⟨lexing, link, operation, fun r old => left.kept history.linked H lexing old⟩

/-- The name `x` as a column. -/
def Node.nameX {α : Type} : Node α := .column ⟨none, none, ⟨.symbol, "x", .start⟩⟩

/-- `WHERE` with a condition. -/
def Node.whereWith {α : Type} (condition : α) : Node α := .whereClause ⟨⟨.whereKw, "WHERE", .start⟩, condition⟩

/-- The store for an empty text into which `x`, `WHERE x` and `(WHERE x)` were inserted. -/
def Forest.bracketedWhere : Forest :=
  (((Forest.empty "").inserted .nameX).inserted (.whereWith ⟨1⟩)).inserted
    (.bracket ⟨⟨.bracketOpen, "(", .start⟩, ⟨.bracketClose, ")", .start⟩, [⟨2⟩]⟩)

theorem Forest.history_bracketedWhere : History bracketedWhere := by
  have column : History ((Forest.empty "").inserted .nameX) := .step (.insert .nameX) (.empty "") (by decide)
  have clause := column.step (.insert (.whereWith ⟨1⟩)) (by decide)
  exact clause.step (.insert (.bracket ⟨⟨.bracketOpen, "(", .start⟩, ⟨.bracketClose, ")", .start⟩, [⟨2⟩]⟩)) (by decide)

/-- XXH3 on the messages of the nodes of this store. -/
def Forest.hashOfBracketedWhere (message : List UInt8) : UInt64 :=
  if message.length = 4 then 0x954d8e6815ecd1dc
  else if message.length = 25 then 0xea1a126d4f98a428
  else if message.length = 34 then 0x64124bf5e712b294
  else 0xa43626dd84bb65d1

/-- A merge of `WHERE x` with itself is rejected. -/
theorem History.merge_rejected_bracketed :
    ∃ v g, History bracketedWhere ∧ bracketedWhere.merge ⟨2⟩ ⟨2⟩ = .error v g ∧
      (g = bracketedWhere ∨ bracketedWhere.stage = .lexing ∧ (bracketedWhere.parent? ⟨2⟩).isSome ∧
        (∃ operation, v = .wrongStage operation .lexing) ∧
          ∀ r, r.index < bracketedWhere.size → Kept hashOfBracketedWhere bracketedWhere g ⟨2⟩ r) := by
  obtain ⟨v, g, failed⟩ : ∃ v g, bracketedWhere.merge ⟨2⟩ ⟨2⟩ = .error v g := ⟨_, _, rfl⟩
  exact ⟨v, g, history_bracketedWhere, failed,
    History.merge_rejected hashOfBracketedWhere history_bracketedWhere failed⟩

/-- After this merge the ancestors of `x` are the clause that was not put into the tree and its conjunction. -/
theorem History.merge_rejected_reparents :
    ∃ v g, History bracketedWhere ∧ bracketedWhere.merge ⟨2⟩ ⟨2⟩ = .error v g ∧
      g.parent? ⟨1⟩ ≠ bracketedWhere.parent? ⟨1⟩ ∧
        (bracketedWhere.ancestors ⟨1⟩).map bracketedWhere.kind = [.whereClause, .bracket] ∧
          (g.ancestors ⟨1⟩).map g.kind = [.conjunction, .whereClause] :=
  ⟨_, _, history_bracketedWhere, rfl, by decide, by decide, by decide⟩

end SqlFold
