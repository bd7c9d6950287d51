import SqlFold.Proofs.Embedding
import SqlFold.Proofs.Shapes

/-!
# Matching brackets

A stack of open brackets matches the brackets of a text (`Token.pairs?`). The tree of a parsed text has a bracket node
for each pair and no others: no leaf is a bracket (`Row.Parses.no_bracket`), no layer but a bracket is written with one
(`Node.Written.no_bracket`), and so what the stack matches among the tokens of a tree is found at the bracket nodes in it,
sub-node by sub-node (`Forest.Matches`, `Forest.Coherent.exists_matches`).
-/

namespace SqlFold

open Forest

/-! ## The scan for a closing bracket -/

namespace Rule

variable {α : Type} {view : α → Node α}

/-- By how much a sibling changes the depth of brackets. -/
def depthOf (view : α → Node α) (a : α) : Int :=
  if leafIs view .bracketOpen a then 1 else if leafIs view .bracketClose a then -1 else 0

/-- The depth of brackets behind siblings. -/
def depth (view : α → Node α) (as : List α) : Int := (as.map (depthOf view)).sum

@[simp] theorem depth_nil : depth view [] = 0 := rfl

@[simp] theorem depth_cons (a : α) (as : List α) : depth view (a :: as) = depthOf view a + depth view as := List.sum_cons

@[simp] theorem depth_append (as bs : List α) : depth view (as ++ bs) = depth view as + depth view bs := by
  simp [depth]

theorem depthOf_open {a : α} (opening : leafIs view .bracketOpen a = true) : depthOf view a = 1 := if_pos opening

theorem depthOf_close {a : α} (closing : leafIs view .bracketClose a = true) : depthOf view a = -1 := by
  obtain ⟨t, shown, kind⟩ := leafIs_iff.mp closing
  have other : leafIs view .bracketOpen a = false := by simp [leafIs, shown, Node.tokenKind?, Node.token?, kind]
  rw [depthOf, other, if_neg Bool.false_ne_true, if_pos closing]

/-- What a scan over siblings with `d` brackets open inside an outer one reads is never outside of the outer one: up to the
bracket that closes it, if that is found, and to the end otherwise. -/
def StaysInside (view : α → Node α) (d : Nat) (as : List α) : Option (List α × Token × List α) → Prop
  | some (inner, _) => d + depth view inner = 0 ∧ ∀ before, before <+: inner → 0 ≤ d + depth view before
  | none => ∀ before, before <+: as → 0 ≤ d + depth view before

theorem staysInside_splitAtClosing? (d : Nat) (as : List α) : StaysInside view d as (splitAtClosing? view d as) := by
  induction as generalizing d with
  | nil =>
    rw [splitAtClosing?]
    exact fun before starts => by simp [List.prefix_nil.mp starts]
  | cons a rest ih =>
    have within {d' : Nat} (change : (d : Int) + depthOf view a = d') :
        StaysInside view d (a :: rest) (splitAtClosing?.within view d' a rest) := by
      have behind {as before : List α} (inside : ∀ before, before <+: as → 0 ≤ d' + depth view before)
          (starts : before <+: a :: as) : 0 ≤ d + depth view before := by
        rcases List.prefix_cons_iff.mp starts with rfl | ⟨more, rfl, shorter⟩
        · simp
        · have := inside more shorter
          rw [depth_cons]
          omega
      have later := ih d'
      rw [splitAtClosing?.within]
      generalize splitAtClosing? view d' rest = split at later
      cases split with
      | none => exact fun before => behind later
      | some split =>
        refine ⟨?_, fun before => behind later.2⟩
        have := later.1
        rw [depth_cons]
        omega
    unfold splitAtClosing?
    split
    · next token => exact within (by simp [depthOf, leafIs, Node.tokenKind?, token])
    · next t token =>
      have kind (k : TokenKind) : leafIs view k a = (t.kind == k) := by
        simp [leafIs, Node.tokenKind?, token]
      split
      · next opening => exact within (by rw [depthOf_open (by simp [kind, opening])]; rfl)
      · next other =>
        split
        · next closing =>
          have down : depthOf view a = -1 := depthOf_close (by simp [kind, closing])
          cases d with
          | zero => exact ⟨rfl, fun before starts => by simp [List.prefix_nil.mp starts]⟩
          | succ d => exact within (by rw [down]; omega)
        · next plain => exact within (by simp [depthOf, kind, other, plain])

/-- The scan from an opening bracket finds the depth above zero until it is at the bracket that closes it, where the depth
is zero. -/
theorem depth_of_scan {focus : Focus α} (opening : leafIs view .bracketOpen focus.here = true) :
    match splitAtClosing? view 0 focus.right with
    | some (inner, _, after) =>
      (∃ closing, focus.right = inner ++ closing :: after ∧ depth view (focus.here :: inner ++ [closing]) = 0) ∧
        ∀ before, before <+: focus.here :: inner → before ≠ [] → 0 < depth view before
    | none => ∀ before, before <+: focus.here :: focus.right → before ≠ [] → 0 < depth view before := by
  have behind {as before : List α} (inside : ∀ before, before <+: as → 0 ≤ 0 + depth view before)
      (starts : before <+: focus.here :: as) (some : before ≠ []) : 0 < depth view before := by
    rcases List.prefix_cons_iff.mp starts with rfl | ⟨more, rfl, shorter⟩
    · exact absurd rfl some
    · have := inside more shorter
      rw [depth_cons, depthOf_open opening]
      omega
  have scanned := @staysInside_splitAtClosing? _ view 0 focus.right
  cases split : splitAtClosing? view 0 focus.right with
  | none =>
    rw [split] at scanned
    exact fun before => behind scanned
  | some found =>
    obtain ⟨inner, closing, after⟩ := found
    rw [split] at scanned
    obtain ⟨c, right, shown, isClosing⟩ := splitAtClosing?_some split
    refine ⟨⟨c, right, ?_⟩, fun before => behind scanned.2⟩
    have level : depth view inner = 0 := by simpa using scanned.1
    have closes : leafIs view .bracketClose c = true := leafIs_iff.mpr ⟨_, shown, isClosing⟩
    simp [depthOf_open opening, depthOf_close closes, level]

end Rule

/-! ## The stack of open brackets -/

/-- The pairs of places at which brackets match, in the order in which they close, found with a stack: `i` is the place of
the first token, and `stack` are the places of the brackets that are open there, the last one first. -/
def Token.pairsFrom (i : Nat) (stack : List Nat) : List Token → Option (List (Nat × Nat))
  | [] => if stack.isEmpty then some [] else none
  | t :: ts =>
    if t.kind = .bracketOpen then pairsFrom (i + 1) (i :: stack) ts
    else if t.kind = .bracketClose then
      match stack with
      | [] => none
      | j :: stack => (pairsFrom (i + 1) stack ts).map ((j, i) :: ·)
    else pairsFrom (i + 1) stack ts

/-- The pairs of places at which the brackets of a text match, if they are balanced. -/
def Token.pairs? (ts : List Token) : Option (List (Nat × Nat)) := pairsFrom 0 [] ts

example :
    let opening : Token := ⟨.bracketOpen, "(", .start⟩
    let closing : Token := ⟨.bracketClose, ")", .start⟩
    Token.pairs? [opening, opening, closing, closing, opening, closing] = some [(1, 2), (0, 3), (4, 5)] ∧
      Token.pairs? [closing, opening] = none := by decide

namespace Token

variable {t : Token} {ts : List Token} {i j : Nat} {stack : List Nat}

theorem pairsFrom_open (opening : t.kind = .bracketOpen) : pairsFrom i stack (t :: ts) = pairsFrom (i + 1) (i :: stack) ts := by
  rw [pairsFrom.eq_def]
  exact if_pos opening

theorem pairsFrom_close (closing : t.kind = .bracketClose) :
    pairsFrom i (j :: stack) (t :: ts) = (pairsFrom (i + 1) stack ts).map ((j, i) :: ·) := by
  rw [pairsFrom, closing, if_neg nofun, if_pos rfl]

theorem pairsFrom_other (other : t.kind.isBracket = false) : pairsFrom i stack (t :: ts) = pairsFrom (i + 1) stack ts := by
  simp only [TokenKind.isBracket, Bool.or_eq_false_iff, beq_eq_false_iff_ne] at other
  rw [pairsFrom.eq_def]
  exact (if_neg other.1).trans (if_neg other.2)

end Token

/-! ## Nodes around pairs -/

/-- A bracket node and the places of its tokens. -/
structure Matched where
  node : NodeRef
  opening : Nat
  closing : Nat

namespace Matched

/-- The pair of places. -/
def pair (m : Matched) : Nat × Nat := (m.opening, m.closing)

end Matched

/-- The brackets among some nodes are found where the tokens `us`, which stand behind `front`, match: in the order in
which they close, each node once, and the inner ones inside the outer ones. -/
structure Forest.Matches (f : Forest) (among : NodeRef → Prop) (front us : List Token) (ms : List Matched) : Prop where
  pairs : ∀ stack rest, Token.pairsFrom front.length stack (us ++ rest) =
    (Token.pairsFrom (front.length + us.length) stack rest).map (ms.map Matched.pair ++ ·)
  once : (ms.map Matched.node).Nodup
  listed : ∀ r, r ∈ ms.map Matched.node ↔ among r ∧ f.kind r = .bracket
  inside : ∀ m ∈ ms, front.length ≤ m.opening ∧ m.opening < m.closing ∧ m.closing < front.length + us.length
  tokens : ∀ m ∈ ms, ∃ p, f.node m.node = .bracket p ∧
    (front ++ us)[m.opening]? = some p.opening ∧ (front ++ us)[m.closing]? = some p.closing
  nested : ∀ m ∈ ms, ∀ m' ∈ ms,
    f.StrictlyBelow m.node m'.node ↔ m.opening < m'.opening ∧ m'.closing < m.closing

namespace Forest.Matches

variable {f : Forest} {among among' : NodeRef → Prop} {front us vs : List Token} {ms ns : List Matched} {t : Token}

theorem nil : f.Matches (fun _ => False) front [] [] where
  pairs stack rest := by simp
  once := .nil
  listed r := by simp
  inside := nofun
  tokens := nofun
  nested := nofun

/-- What is said of some nodes is said of others with the same brackets among them. -/
theorem congr (h : f.Matches among front us ms) (same : ∀ r, f.kind r = .bracket → (among r ↔ among' r)) :
    f.Matches among' front us ms where
  __ := h
  listed r := (h.listed r).trans ⟨fun ⟨here, kind⟩ => ⟨(same r kind).mp here, kind⟩,
    fun ⟨here, kind⟩ => ⟨(same r kind).mpr here, kind⟩⟩

/-- A token that is no bracket changes nothing. -/
theorem token (other : t.kind.isBracket = false) (h : f.Matches among (front ++ [t]) us ms) :
    f.Matches among front (t :: us) ms := by
  have length : (front ++ [t]).length + us.length = front.length + (t :: us).length := by simp; omega
  have whole : front ++ [t] ++ us = front ++ t :: us := by simp
  refine ⟨fun stack rest => ?_, h.once, h.listed, fun m mem => ?_, fun m mem => whole ▸ h.tokens m mem, h.nested⟩
  · rw [List.cons_append, Token.pairsFrom_other other, ← length, ← h.pairs]
    simp
  · have := h.inside m mem
    simp at this ⊢
    omega

/-- Two stretches of tokens with nodes that have nothing to do with each other. -/
theorem append (h : f.Matches among front us ms) (h' : f.Matches among' (front ++ us) vs ns)
    (apart : ∀ r r', among r → among' r' → ¬f.Below r r' ∧ ¬f.Below r' r) :
    f.Matches (fun r => among r ∨ among' r) front (us ++ vs) (ms ++ ns) := by
  have length : front.length + (us ++ vs).length = (front ++ us).length + vs.length := by simp; omega
  have among {m : Matched} (mem : m ∈ ms) : among m.node := ((h.listed _).mp (List.mem_map_of_mem mem)).1
  have among' {m : Matched} (mem : m ∈ ns) : among' m.node := ((h'.listed _).mp (List.mem_map_of_mem mem)).1
  refine ⟨fun stack rest => ?_, ?_, fun r => ?_, fun m mem => ?_, fun m mem => ?_, fun m mem m' mem' => ?_⟩
  · have later := h'.pairs stack rest
    rw [List.length_append] at later
    rw [List.append_assoc, h.pairs, later, length, List.length_append, Option.map_map]
    simp [Function.comp_def]
  · rw [List.map_append]
    refine List.nodup_append.mpr ⟨h.once, h'.once, fun a here b later same => ?_⟩
    obtain ⟨m, mem, rfl⟩ := List.mem_map.mp here
    obtain ⟨m', mem', rfl⟩ := List.mem_map.mp later
    exact (apart _ _ (among mem) (among' mem')).1 (same ▸ .refl)
  · rw [List.map_append, List.mem_append, h.listed, h'.listed, or_and_right]
  · rcases List.mem_append.mp mem with mem | mem
    · have := h.inside m mem
      simp
      omega
    · have := h'.inside m mem
      simp at this ⊢
      omega
  · rcases List.mem_append.mp mem with mem | mem
    · obtain ⟨p, node, opening, closing⟩ := h.tokens m mem
      have within := h.inside m mem
      refine ⟨p, node, ?_, ?_⟩
      · rwa [← List.append_assoc, List.getElem?_append_left (by simp; omega)]
      · rwa [← List.append_assoc, List.getElem?_append_left (by simp; omega)]
    · rw [← List.append_assoc]
      exact h'.tokens m mem
  · -- Nodes of different stretches are not below each other, and neither are their places.
    rcases List.mem_append.mp mem with mem | mem <;> rcases List.mem_append.mp mem' with mem' | mem'
    · exact h.nested m mem m' mem'
    · have here := h.inside m mem
      have later := h'.inside m' mem'
      rw [List.length_append] at later
      refine ⟨fun below => absurd below.2 (apart _ _ (among mem) (among' mem')).1, fun nested => ?_⟩
      omega
    · have here := h'.inside m mem
      have later := h.inside m' mem'
      rw [List.length_append] at here
      refine ⟨fun below => absurd below.2 (apart _ _ (among mem') (among' mem)).2, fun nested => ?_⟩
      omega
    · exact h'.nested m mem m' mem'

/-- A bracket around what stands below it. -/
theorem around {r : NodeRef} {p : Bracket NodeRef} (coherent : f.Coherent) (node : f.node r = .bracket p)
    (opening : p.opening.kind = .bracketOpen) (closing : p.closing.kind = .bracketClose)
    (h : f.Matches (f.StrictlyBelow r) (front ++ [p.opening]) us ms) :
    f.Matches (f.Below r) front (p.opening :: (us ++ [p.closing])) (ms ++ [⟨r, front.length, front.length + 1 + us.length⟩]) := by
  have whole : front ++ p.opening :: (us ++ [p.closing]) = front ++ [p.opening] ++ us ++ [p.closing] := by simp
  have below {m : Matched} (mem : m ∈ ms) : f.StrictlyBelow r m.node := ((h.listed _).mp (List.mem_map_of_mem mem)).1
  have within {m : Matched} (mem : m ∈ ms) : front.length < m.opening ∧ m.opening < m.closing ∧
      m.closing < front.length + 1 + us.length := by
    have := h.inside m mem
    simp at this
    omega
  refine ⟨fun stack rest => ?_, ?_, fun q => ?_, fun m mem => ?_, fun m mem => ?_, fun m mem m' mem' => ?_⟩
  · have inner := h.pairs (front.length :: stack) (p.closing :: rest)
    rw [Token.pairsFrom_close closing] at inner
    rw [List.cons_append, Token.pairsFrom_open opening, List.append_assoc, List.singleton_append]
    simp only [List.length_append, List.length_singleton] at inner
    rw [inner, Option.map_map]
    simp [Function.comp_def, Matched.pair, Nat.add_assoc, Nat.add_comm 1]
  · rw [List.map_append]
    refine List.nodup_append.mpr ⟨h.once, List.nodup_singleton _, fun a here b last same => ?_⟩
    obtain ⟨m, mem, rfl⟩ := List.mem_map.mp here
    obtain rfl := List.mem_singleton.mp last
    exact (below mem).1 same
  · rw [List.map_append, List.mem_append, h.listed]
    constructor
    · rintro (⟨here, kind⟩ | last)
      · exact ⟨here.2, kind⟩
      · obtain rfl := List.mem_singleton.mp last
        exact ⟨.refl, by rw [kind, node]; rfl⟩
    · rintro ⟨here, kind⟩
      by_cases same : q = r
      · exact .inr (List.mem_singleton.mpr same)
      · exact .inl ⟨⟨same, here⟩, kind⟩
  · rcases List.mem_append.mp mem with mem | last
    · have := within mem
      simp
      omega
    · obtain rfl := List.mem_singleton.mp last
      simp
      omega
  · rw [whole]
    rcases List.mem_append.mp mem with mem | last
    · obtain ⟨p', node', opening', closing'⟩ := h.tokens m mem
      have := within mem
      refine ⟨p', node', ?_, ?_⟩
      · rwa [List.getElem?_append_left (by simp; omega)]
      · rwa [List.getElem?_append_left (by simp; omega)]
    · obtain rfl := List.mem_singleton.mp last
      have last : (front ++ [p.opening] ++ us).length = front.length + 1 + us.length := by simp; omega
      exact ⟨p, node, by simp, by simp [← last]⟩
  · rcases List.mem_append.mp mem with mem | last <;> rcases List.mem_append.mp mem' with mem' | last'
    · exact h.nested m mem m' mem'
    · obtain rfl := List.mem_singleton.mp last'
      have := within mem
      refine ⟨fun above => absurd (coherent.not_above above.2 (below mem).2) (below mem).1, fun nested => ?_⟩
      dsimp only at nested
      omega
    · obtain rfl := List.mem_singleton.mp last
      have := within mem'
      exact iff_of_true (below mem') ⟨this.1, this.2.2⟩
    · obtain rfl := List.mem_singleton.mp last
      obtain rfl := List.mem_singleton.mp last'
      exact iff_of_false (fun above => above.1 rfl) (fun nested => Nat.lt_irrefl _ nested.1)

end Forest.Matches

/-! ## A tree over its tokens -/

namespace Forest.Coherent

variable {f : Forest} {r : NodeRef} {front us : List Token}

/-- What is strictly below a node is below one of its sub-nodes. -/
theorem strictlyBelow_iff (h : f.Coherent) {q : NodeRef} : f.StrictlyBelow r q ↔ ∃ c ∈ f.children r, f.Below c q := by
  constructor
  · rintro ⟨other, below⟩
    rcases Relation.ReflTransGen.cases_head below with same | ⟨c, listed, below⟩
    · exact absurd same.symm other
    · exact ⟨c, listed, below⟩
  · rintro ⟨c, listed, below⟩
    refine ⟨?_, .head listed below⟩
    rintro rfl
    exact not_below_of_mem_children h.grounded listed below

/-- A layer that is written without brackets has the brackets below its sub-nodes. -/
theorem exists_matches_of_pieces (h : f.Coherent) (reached : f.Reached r) {ps : List (Piece NodeRef)}
    (below : Piece.children ps ⊆ f.children r) (once : (Piece.children ps).Nodup)
    (spelled : Spelled (fun c us => (f.bare c).Spells us) ps us)
    (plain : ∀ t, .token t ∈ ps ∨ .name t ∈ ps → t.kind.isBracket = false)
    (each : ∀ c ∈ Piece.children ps, ∀ front us, (f.bare c).Spells us → ∃ ms, f.Matches (f.Below c) front us ms) :
    ∃ ms, f.Matches (fun q => ∃ c ∈ Piece.children ps, f.Below c q) front us ms := by
  induction ps generalizing front us with
  | nil =>
    cases spelled
    exact ⟨[], .congr .nil (by simp)⟩
  | cons p ps ih =>
    have later : ∀ t, .token t ∈ ps ∨ .name t ∈ ps → t.kind.isBracket = false := fun t mem =>
      plain t (mem.imp (List.mem_cons_of_mem _) (List.mem_cons_of_mem _))
    cases p with
    | token t =>
      obtain ⟨rest, rfl, spelled⟩ := spelled
      obtain ⟨ms, found⟩ := ih below once spelled later each
      exact ⟨ms, found.token (plain t (.inl List.mem_cons_self))⟩
    | name t =>
      obtain ⟨rest, rfl, spelled⟩ := spelled
      obtain ⟨ms, found⟩ := ih below once spelled later each
      exact ⟨ms, found.token (plain t (.inr List.mem_cons_self))⟩
    | child c =>
      obtain ⟨us, rest, rfl, here, spelled⟩ := spelled
      simp only [Piece.children_child, List.cons_subset, List.nodup_cons, List.forall_mem_cons] at below once each
      obtain ⟨ms, first⟩ := each.1 front us here
      obtain ⟨ns, others⟩ := @ih (front ++ us) rest below.2 once.2 spelled later each.2
      refine ⟨ms ++ ns, (first.append others ?_).congr (by simp)⟩
      -- Nothing is below two sub-nodes of one node.
      rintro q q' here' ⟨d, listed, there⟩
      have two : c ≠ d := fun same => once.1 (same ▸ listed)
      exact ⟨fun above => two (h.eq_of_below reached below.1 (below.2 listed) (here'.trans above) there),
        fun above => two (h.eq_of_below reached below.1 (below.2 listed) here' (there.trans above))⟩

/-- Where no leaf is a bracket, the brackets of a tree are those that match among its tokens. -/
theorem exists_matches (h : f.Coherent) (reached : f.Reached r) (spelled : (f.bare r).Spells us)
    {glance : NodeRef → Glance} (slots : ∀ q, f.Below r q → (f.node q).Slots glance)
    (leaves : ∀ q, f.Below r q → ∀ t, f.node q = .leaf t → t.kind.isBracket = false) :
    ∃ ms, f.Matches (f.Below r) front us ms := by
  induction r using h.grounded.induction generalizing front us with
  | _ r ih =>
    have each : ∀ c ∈ f.children r, ∀ front us, (f.bare c).Spells us → ∃ ms, f.Matches (f.Below c) front us ms :=
      fun c listed front us spelled => ih c listed (reached.child listed) spelled
        (fun q below => slots q (.head listed below)) fun q below => leaves q (.head listed below)
    rw [h.bare_eq, Tree.spells_mk] at spelled
    obtain ⟨_, written, spelled⟩ := spelled
    obtain ⟨ps, layer, rfl⟩ := written.of_map
    rw [spelled_map] at spelled
    have inner {ps : List (Piece NodeRef)} {front us : List Token} (same : Piece.children ps = f.children r)
        (spelled : Spelled (fun c us => (f.bare c).Spells us) ps us)
        (plain : ∀ t, .token t ∈ ps ∨ .name t ∈ ps → t.kind.isBracket = false) :
        ∃ ms, f.Matches (f.StrictlyBelow r) front us ms := by
      obtain ⟨ms, found⟩ := @exists_matches_of_pieces f r front us h reached ps (fun c mem => same ▸ mem)
        (same ▸ h.once reached) spelled plain (same ▸ each)
      exact ⟨ms, found.congr fun q _ => by rw [same, h.strictlyBelow_iff]⟩
    by_cases bracket : f.kind r = .bracket
    · -- The brackets of the node itself are around those below it.
      cases node : f.node r with
      | bracket p =>
        have kinds := slots r .refl
        rw [node] at layer kinds
        cases layer with
        | bracket =>
          obtain ⟨rest, rfl, spelled⟩ := spelled
          obtain ⟨us, _, rfl, between, _, rfl, rfl⟩ := spelled_append.mp spelled
          obtain ⟨ms, found⟩ := @inner (p.children.map .child) (front ++ [p.opening]) us (by simp [children, node]) between
            (by simp)
          exact ⟨_, found.around h node kinds.1 kinds.2⟩
      | _ => rw [kind, node] at bracket; cases bracket
    · -- No other layer has brackets of its own.
      have plain : ∀ t, .token t ∈ ps ∨ .name t ∈ ps → t.kind.isBracket = false := by
        intro t mem
        by_cases leaf : f.kind r = .tokenLeaf
        · cases node : f.node r with
          | leaf u =>
            rw [node] at layer
            cases layer with
            | leaf =>
              obtain rfl : t = u := by simpa using mem
              exact leaves r .refl t node
          | _ => rw [kind, node] at leaf; cases leaf
        · exact layer.no_bracket (slots r .refl) (by simpa using ⟨leaf, bracket⟩) mem
      obtain ⟨ms, found⟩ := @inner ps front us layer.children spelled plain
      refine ⟨ms, found.congr fun q isBracket => ⟨And.right, fun below => ⟨?_, below⟩⟩⟩
      rintro rfl
      exact bracket isBracket

end Forest.Coherent

/-! ## No leaf is a bracket -/

namespace Row

variable {raw row : Row}

/-- A layer that is no leaf of a bracket. -/
def NoBracket (n : Node Bare) : Prop := ∀ t, n = .leaf t → t.kind.isBracket = false

/-- No tree that stands in a row with grouped brackets is the leaf of a bracket. -/
theorem Grouped.no_bracket {S : Row → Row → Prop} {previous : Option Bare} (grouped : Grouped S previous raw row) :
    ∀ t ∈ row, NoBracket t.node := by
  induction grouped with
  | nil => exact List.forall_mem_nil _
  | cons _ opened closed _ ih =>
    refine List.forall_mem_cons.mpr ⟨fun t leaf => ?_, ih⟩
    rw [opens, Rule.leafIs, leaf] at opened
    rw [closes, Rule.leafIs, leaf] at closed
    exact Bool.or_eq_false_iff.mpr ⟨opened, closed⟩
  | span _ _ _ _ _ _ ih => exact List.forall_mem_cons.mpr ⟨fun _ leaf => (by cases leaf), ih⟩

/-- No leaf in the trees of a parsed row is a bracket. -/
theorem Parses.no_bracket (parses : Parses raw row) (leaves : ∀ t ∈ raw, t.kind = .tokenLeaf) :
    ∀ t ∈ row, t.All NoBracket := by
  refine parses.induction (Q := fun _ row => ∀ t ∈ row, t.All NoBracket) (fun leaves grouped rests => ?_) leaves
  refine rests.keeps (I := fun row => ∀ t ∈ row, t.All NoBracket) (fun _ _ _ _ _ _ answer all => ?_) fun t mem => ?_
  · refine Rule.forall_row answer all (.of_node (fun t leaf => ?_) (Rule.all_children (fun _ => nofun) answer all))
    exact absurd (congrArg Node.kind leaf) (Rule.kind_tree_ne_leaf answer)
  · have here := grouped.no_bracket t mem
    rcases grouped.mem t mem with raw | ⟨_, _, _, _, _, rfl, _, _, ⟨_, inner⟩, _⟩
    · obtain ⟨⟨⟩, n⟩ := t
      have leaf : n.kind = .tokenLeaf := leaves _ raw
      cases n with
      | leaf => exact .of_children_nil here rfl
      | _ => cases leaf
    · exact .mk here (by simpa using inner)

end Row

/-! ## Texts -/

namespace Folding

variable {limit : Nat} (notesCalls : Bool) {s : Script}

/-- Brackets match as they do among the tokens. Where a run with all rules succeeds, the brackets among the tokens are
balanced, and what a stack of open brackets matches is what the bracket nodes of the tree have for their tokens, each node
one pair, with one node below another exactly if its pair is inside the other's. And whatever stands in a branch, the
depth of brackets that `Rule.bracket` counts from an opening bracket on is above zero until it is at the bracket that
closes it, and zero there. -/
theorem runWith_matches :
    (((standard limit).runWith notesCalls root (ofScript s)).result = .ok () →
      let f := ((standard limit).runWith notesCalls root (ofScript s)).forest
      ∃ ms : List Matched,
        Token.pairs? s.significant = some (ms.map Matched.pair) ∧ (ms.map Matched.node).Nodup ∧
        (∀ r, r ∈ ms.map Matched.node ↔ f.Reached r ∧ f.kind r = .bracket) ∧
        (∀ m ∈ ms, ∃ p, f.node m.node = .bracket p ∧
          s.significant[m.opening]? = some p.opening ∧ s.significant[m.closing]? = some p.closing) ∧
        ∀ m ∈ ms, ∀ m' ∈ ms, f.StrictlyBelow m.node m'.node ↔ m.opening < m'.opening ∧ m'.closing < m.closing) ∧
    ∀ (α : Type) (view : α → Node α) (focus : Focus α), Rule.leafIs view .bracketOpen focus.here = true →
      match Rule.splitAtClosing? view 0 focus.right with
      | some (inner, _, after) =>
        (∃ closing, focus.right = inner ++ closing :: after ∧ Rule.depth view (focus.here :: inner ++ [closing]) = 0) ∧
          ∀ before, before <+: focus.here :: inner → before ≠ [] → 0 < Rule.depth view before
      | none => ∀ before, before <+: focus.here :: focus.right → before ≠ [] → 0 < Rule.depth view before := by
  refine ⟨fun result => ?_, fun α view focus => Rule.depth_of_scan⟩
  intro f
  obtain ⟨row, parses, -, shown⟩ := exists_parses notesCalls result
  have h : f.Coherent := Folding.runWith_coherent (standard limit) notesCalls s
  have spelled : (f.bare root).Spells s.significant := runWith_spells (standard limit) notesCalls s
  have slots (q : NodeRef) (below : f.Below root q) : (f.node q).Slots (Rule.glance Tree.node ∘ f.bare) := by
    rw [← Node.slots_map, ← h.node_bare]
    rcases h.all_reached shown parses.regular (Reached.root.below below) with rfl | regular
    · rw [show f.bare root = _ from shown]
      trivial
    · exact regular.node.2.1
  have leaves (q : NodeRef) (below : f.Below root q) (t : Token) (node : f.node q = .leaf t) : t.kind.isBracket = false := by
    have layer : (f.bare q).node = .leaf t := by
      rw [h.node_bare, node]
      rfl
    rcases h.all_reached shown (parses.no_bracket (Row.leaf_of_mem_leaves _)) (Reached.root.below below) with rfl | all
    · rw [show f.bare root = _ from shown] at layer
      cases layer
    · exact all.node t layer
  obtain ⟨ms, found⟩ := @Coherent.exists_matches f root [] s.significant h .root spelled _ slots leaves
  have pairs := found.pairs [] []
  refine ⟨ms, ?_, found.once, fun r => ?_, found.tokens, found.nested⟩
  · simpa [Token.pairs?, Token.pairsFrom] using pairs
  · rw [found.listed, reached_iff_below]

/-- `((1))` has two pairs of brackets, one inside the other, and the scan from the first bracket stays inside it up to the
last one. -/
theorem runWith_matches_nested :
    let opening (column : Nat) : Token := ⟨.bracketOpen, "(", ⟨0, column⟩⟩
    let closing (column : Nat) : Token := ⟨.bracketClose, ")", ⟨0, column⟩⟩
    let number : Token := ⟨.numericLiteral, "1", ⟨0, 2⟩⟩
    let run := (standard 100).runWith false root (ofScript ⟨"((1))", [opening 0, opening 1, number, closing 3, closing 4]⟩)
    let f := run.forest
    let inner := Row.leaves [opening 1, number, closing 3]
    run.result = .ok () ∧
      (∃ outer inner p q, f.node outer = .bracket p ∧ p.opening = opening 0 ∧ p.closing = closing 4 ∧
        f.node inner = .bracket q ∧ q.opening = opening 1 ∧ q.closing = closing 3 ∧ f.StrictlyBelow outer inner) ∧
      ∀ before, before <+: .mk () (.leaf (opening 0)) :: inner → before ≠ [] → 0 < Rule.depth Tree.node before := by
  intro opening closing number run f inner
  let tokens : List Token := [opening 0, opening 1, number, closing 3, closing 4]
  have settled : Row.settle (.standard 100) false 6 (Row.leaves tokens) =
      .ok () [Row.span (opening 0) (closing 4) [Row.span (opening 1) (closing 3) [.mk () (.literal ⟨none, number⟩)]]] := by cbv
  have parsed := (Row.settle_ok_iff_within (Row.leaf_of_mem_leaves tokens) (by decide)).mp settled
  obtain ⟨result, -⟩ := (@runWith_ok_iff_within 100 false ⟨"((1))", tokens⟩ _).mpr parsed
  have found : Rule.splitAtClosing? Tree.node 0 (inner ++ Row.leaves [closing 4]) = some (inner, closing 4, []) := by cbv
  have scanned := (@runWith_matches 100 false ⟨"((1))", tokens⟩).2 Bare Tree.node
    ⟨[], .mk () (.leaf (opening 0)), inner ++ Row.leaves [closing 4]⟩ rfl
  dsimp only at scanned
  rw [found] at scanned
  refine ⟨result, ?_, scanned.2⟩
  obtain ⟨ms, pairs, -, -, shown, nested⟩ := (@runWith_matches 100 false ⟨"((1))", tokens⟩).1 result
  have two : ms.map Matched.pair = [(1, 3), (0, 4)] := Option.some.inj (pairs.symm.trans (by decide))
  obtain ⟨⟨small, i, j⟩, ms, rfl, same, rest⟩ := List.map_eq_cons_iff.mp two
  obtain ⟨⟨large, i', j'⟩, rfl, same'⟩ := List.map_eq_singleton_iff.mp rest
  cases same
  cases same'
  obtain ⟨q, node, opens, closes⟩ := shown ⟨small, 1, 3⟩ (by simp)
  obtain ⟨p, node', opens', closes'⟩ := shown ⟨large, 0, 4⟩ (by simp)
  exact ⟨large, small, p, q, node', (Option.some.inj opens').symm, (Option.some.inj closes').symm, node,
    (Option.some.inj opens).symm, (Option.some.inj closes).symm,
    (nested ⟨large, 0, 4⟩ (by simp) ⟨small, 1, 3⟩ (by simp)).mpr ⟨Nat.zero_lt_one, Nat.lt_succ_self 3⟩⟩

end Folding

end SqlFold
