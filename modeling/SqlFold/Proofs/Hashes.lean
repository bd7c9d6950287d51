import Mathlib.Data.List.Infix
import SqlFold.Proofs.Fingerprints
import SqlFold.Proofs.Sessions

/-!
# What hashes tell

The message of a node can be read back: names of kinds are not the start of one another, and every
part says by its first byte what it is and by its length where it ends. So two hashes are equal exactly
when the fingerprints are (`Fingerprint.hash_eq_iff`), as long as

* `H` does not give one number to two different messages that are hashed for the two nodes
  (`Fingerprint.Separates`), and
* the length of every lexeme fits into eight bytes, as it does in any memory
  (`Fingerprint.Addressable`).

`Forest.hash_identifies` says what this means for two nodes of two stores.
-/

namespace SqlFold

/-! ## Bytes that are read back -/

theorem Text.bytes_inj {s t : String} (same : bytes s = bytes t) : s = t :=
  String.toByteArray_inj.mp (ByteArray.ext (Array.toList_inj.mp same))

theorem length_littleEndian (w n : Nat) : (littleEndian w n).length = w := by
  induction w generalizing n with
  | zero => rfl
  | succ w ih => rw [littleEndian, List.length_cons, ih]

/-- Numbers that fit into `w` bytes are read back from them. -/
theorem littleEndian_inj {w n m : Nat} (hn : n < 256 ^ w) (hm : m < 256 ^ w)
    (same : littleEndian w n = littleEndian w m) : n = m := by
  induction w generalizing n m with
  | zero => omega
  | succ w ih =>
    obtain ⟨low, high⟩ := List.cons.inj same
    have power : 256 ^ (w + 1) = 256 ^ w * 256 := Nat.pow_succ ..
    have quotients : n / 256 = m / 256 := ih (by omega) (by omega) high
    have remainders := congrArg UInt8.toNat low
    rw [UInt8.toNat_ofNat', UInt8.toNat_ofNat'] at remainders
    omega

/-- What stands before the first zero is read back. -/
theorem append_zero_inj {l m u v : List UInt8} (hl : 0 ∉ l) (hm : 0 ∉ m)
    (same : l ++ 0 :: u = m ++ 0 :: v) : l = m ∧ u = v := by
  induction l generalizing m with
  | nil =>
    cases m with
    | nil => exact ⟨rfl, (List.cons.inj same).2⟩
    | cons b m => exact absurd ((List.cons.inj same).1 ▸ List.mem_cons_self) hm
  | cons a l ih =>
    cases m with
    | nil => exact absurd ((List.cons.inj same).1 ▸ List.mem_cons_self) hl
    | cons b m =>
      obtain ⟨rfl, rest⟩ := List.cons.inj same
      obtain ⟨rfl, last⟩ := ih (fun mem => hl (List.mem_cons_of_mem _ mem))
        (fun mem => hm (List.mem_cons_of_mem _ mem)) rest
      exact ⟨rfl, last⟩

theorem childBytes_append_inj {h k : UInt64} {u v : List UInt8}
    (same : childBytes h ++ u = childBytes k ++ v) : h = k ∧ u = v := by
  obtain ⟨number, rest⟩ := List.append_inj (List.cons.inj same).2 (by simp only [length_littleEndian])
  exact ⟨UInt64.toNat_inj.mp (littleEndian_inj h.toNat_lt k.toNat_lt number), rest⟩

/-! ## Names of kinds -/

theorem TokenKind.zero_notMem_name (k : TokenKind) : 0 ∉ Text.bytes k.name := by
  cases k <;> decide

theorem TokenKind.name_inj {k l : TokenKind} (same : k.name = l.name) : k = l :=
  Option.some.inj (by rw [← k.ofName?_name, ← l.ofName?_name, same])

/-- No name of a kind is the start of another. -/
theorem NodeKind.eq_of_name_start {k l : NodeKind} :
    Text.bytes k.name <+: Text.bytes l.name → k = l := by
  have all : ∀ k ∈ NodeKind.all, ∀ l ∈ NodeKind.all,
      Text.bytes k.name <+: Text.bytes l.name → k = l := by decide +kernel
  exact all k k.mem_all l l.mem_all

/-- The kind is read back from a message. -/
theorem NodeKind.name_append_inj {k l : NodeKind} {u v : List UInt8}
    (same : Text.bytes k.name ++ u = Text.bytes l.name ++ v) : k = l ∧ u = v := by
  have kinds : k = l := by
    rcases List.prefix_or_prefix_of_prefix (List.prefix_append _ u) (same ▸ List.prefix_append _ v)
      with h | h
    · exact eq_of_name_start h
    · exact (eq_of_name_start h).symm
  subst kinds
  exact ⟨rfl, List.append_cancel_left same⟩

/-! ## Messages -/

/-- A part that is no sub-node is read back from its bytes. -/
theorem Detail.bytes_append_inj {d e : Detail} {u v : List UInt8}
    (short : ∀ kind lexeme, d = token kind lexeme → lexeme.utf8ByteSize < 2 ^ 64)
    (short' : ∀ kind lexeme, e = token kind lexeme → lexeme.utf8ByteSize < 2 ^ 64)
    (same : d.bytes ++ u = e.bytes ++ v) : d = e ∧ u = v := by
  cases d <;> cases e
  case token.token k s l t =>
    simp only [bytes, List.cons_append, List.append_assoc] at same
    obtain ⟨kinds, rest⟩ :=
      append_zero_inj k.zero_notMem_name l.zero_notMem_name (List.cons.inj same).2
    obtain ⟨lengths, lexemes⟩ := List.append_inj rest (by simp only [length_littleEndian])
    have sizes : s.utf8ByteSize = t.utf8ByteSize :=
      littleEndian_inj (short _ _ rfl) (short' _ _ rfl) lengths
    obtain ⟨texts, last⟩ := List.append_inj lexemes sizes
    obtain rfl := TokenKind.name_inj (Text.bytes_inj kinds)
    obtain rfl := Text.bytes_inj texts
    exact ⟨rfl, last⟩
  case absent.absent => exact ⟨rfl, (List.cons.inj same).2⟩
  case mark.mark b c =>
    obtain ⟨flags, rest⟩ := List.cons.inj (List.cons.inj same).2
    refine ⟨?_, rest⟩
    revert flags
    cases b <;> cases c <;> decide
  all_goals exact absurd (List.cons.inj same).1 (by decide)

theorem Detail.bytes_append_ne_nil (d : Detail) (u : List UInt8) : d.bytes ++ u ≠ [] := by
  cases d <;> exact List.cons_ne_nil _ _

/-- The first byte tells a sub-node from other parts. -/
theorem Detail.bytes_append_ne_childBytes (d : Detail) (h : UInt64) (u v : List UInt8) :
    d.bytes ++ u ≠ childBytes h ++ v := by
  intro same
  cases d <;> exact absurd (List.cons.inj same).1 (by decide)

namespace Sketch

/-- The lexemes of all tokens. -/
def lexemes : Sketch → List String
  | stop => []
  | detail (.token _ lexeme) rest => lexeme :: rest.lexemes
  | detail _ rest => rest.lexemes
  | child _ inner rest => inner.lexemes ++ rest.lexemes

variable (H : List UInt8 → UInt64)

/-- The messages of all sub-nodes. -/
def messages : Sketch → List (List UInt8)
  | stop => []
  | detail _ rest => rest.messages
  | child kind inner rest =>
    (Text.bytes kind.name ++ inner.bytes H) :: (inner.messages ++ rest.messages)

/-- Parts are read back from their bytes. -/
theorem bytes_inj {a b : Sketch} (short : ∀ l ∈ a.lexemes, l.utf8ByteSize < 2 ^ 64)
    (short' : ∀ l ∈ b.lexemes, l.utf8ByteSize < 2 ^ 64)
    (separates : ∀ x ∈ a.messages H, ∀ y ∈ b.messages H, H x = H y → x = y)
    (same : a.bytes H = b.bytes H) : a = b := by
  induction a generalizing b with
  | stop =>
    cases b with
    | stop => rfl
    | detail d _ => exact absurd same.symm (d.bytes_append_ne_nil _)
    | child => cases same
  | detail d rest ih =>
    have below : ∀ l ∈ rest.lexemes, l ∈ (detail d rest).lexemes := fun l hl => by
      cases d <;> simp [lexemes, hl]
    cases b with
    | stop => exact absurd same (d.bytes_append_ne_nil _)
    | child kind inner rest' => exact absurd same (d.bytes_append_ne_childBytes _ _ _)
    | detail e rest' =>
      have below' : ∀ l ∈ rest'.lexemes, l ∈ (detail e rest').lexemes := fun l hl => by
        cases e <;> simp [lexemes, hl]
      obtain ⟨rfl, rests⟩ := Detail.bytes_append_inj
        (fun _ lexeme eq => short lexeme (by rw [eq]; exact List.mem_cons_self))
        (fun _ lexeme eq => short' lexeme (by rw [eq]; exact List.mem_cons_self)) same
      rw [ih (fun l hl => short l (below l hl)) (fun l hl => short' l (below' l hl)) separates rests]
  | child kind inner rest ihInner ihRest =>
    cases b with
    | stop => cases same
    | detail e rest' => exact absurd same.symm (e.bytes_append_ne_childBytes _ _ _)
    | child kind' inner' rest' =>
      simp only [lexemes, List.mem_append] at short short'
      simp only [messages, List.mem_cons, List.mem_append] at separates
      -- Equal hashes come from equal messages, from which kinds and inner parts are read back.
      obtain ⟨hashes, rests⟩ := childBytes_append_inj same
      obtain ⟨rfl, inners⟩ := NodeKind.name_append_inj (separates _ (.inl rfl) _ (.inl rfl) hashes)
      rw [ihInner (fun l hl => short l (.inl hl)) (fun l hl => short' l (.inl hl))
          (fun x hx y hy => separates x (.inr (.inl hx)) y (.inr (.inl hy))) inners,
        ihRest (fun l hl => short l (.inr hl)) (fun l hl => short' l (.inr hl))
          (fun x hx y hy => separates x (.inr (.inr hx)) y (.inr (.inr hy))) rests]

end Sketch

namespace Fingerprint

variable (H : List UInt8 → UInt64)

/-- What is hashed for a node: its message and those of the nodes below. -/
def messages (p : Fingerprint) : List (List UInt8) := p.message H :: p.parts.messages H

/-- The length of every lexeme fits into eight bytes. -/
def Addressable (p : Fingerprint) : Prop := ∀ l ∈ p.parts.lexemes, l.utf8ByteSize < 2 ^ 64

/-- Two different messages, one hashed for the first node and one for the second, have different
hashes. -/
def Separates (p q : Fingerprint) : Prop := ∀ x ∈ p.messages H, ∀ y ∈ q.messages H, H x = H y → x = y

/-- Where no hashes collide, hashes are equal exactly when the fingerprints are. -/
theorem hash_eq_iff {p q : Fingerprint} (short : p.Addressable) (short' : q.Addressable)
    (separates : Separates H p q) : p.hash H = q.hash H ↔ p = q := by
  refine ⟨fun same => ?_, fun same => by rw [same]⟩
  have messages := separates _ List.mem_cons_self _ List.mem_cons_self same
  obtain ⟨kinds, parts⟩ := NodeKind.name_append_inj messages
  have inner := Sketch.bytes_inj H short short' (fun x hx y hy =>
    separates x (List.mem_cons_of_mem _ hx) y (List.mem_cons_of_mem _ hy)) parts
  cases p; cases q
  rw [Fingerprint.mk.injEq]
  exact ⟨kinds, inner⟩

end Fingerprint

/-- The lexemes in the fingerprint of a tree are those of its tokens. -/
theorem Tree.lexemes_fingerprint {ι : Type} (t : Tree ι) :
    t.fingerprint.parts.lexemes = t.tokens.map (·.lexeme) := by
  induction t using Tree.induction with
  | step tag n ih =>
    have parts (ps : List (Part (Tree ι)))
        (ih : ∀ c, .child c ∈ ps → c.fingerprint.parts.lexemes = c.tokens.map (·.lexeme)) :
        (Fingerprint.sketch (ps.map (Part.map fingerprint))).lexemes =
          (ps.flatMap (Part.read tokens)).map (·.lexeme) := by
      induction ps with
      | nil => rfl
      | cons p ps rest =>
        have later := rest fun c hc => ih c (List.mem_cons_of_mem _ hc)
        rw [List.map_cons, List.flatMap_cons, List.map_append, ← later]
        cases p with
        | token t => rfl
        | child c => exact congrArg (· ++ _) (ih c List.mem_cons_self)
        | absent => rfl
        | mark flag => rfl
    rw [fingerprint_mk, Fingerprint.layer, Node.parts_map, tokens_mk]
    exact parts n.parts fun c hc => ih c (List.mem_filterMap.mpr ⟨_, hc, rfl⟩)

/-! ## Hashes of nodes -/

namespace Forest

variable {f g : Forest} {r s : NodeRef}

/-- The answer to `hash` is the hash of what the store says of the fingerprint. -/
theorem Grounded.hash_run (H : List UInt8 → UInt64) (h : f.Grounded r) :
    ∃ g, hash H r f = .ok ((f.recalled r).hash H) g ∧ Remembers f g := by
  obtain ⟨g, asked, rem⟩ := h.fingerprint_run
  exact ⟨g, by rw [hash, bind_ok asked]; rfl, rem⟩

/-- In a store that remembers nothing wrong it is the hash of the tree. -/
theorem Grounded.hash_tree (H : List UInt8 → UInt64) (h : f.Grounded r) (right : f.Recalls r) :
    ∃ g, hash H r f = .ok ((f.tree r).fingerprint.hash H) g := by
  obtain ⟨g, asked, -⟩ := h.hash_run H
  exact ⟨g, by rw [asked, h.recalled_eq_fingerprint right]⟩

/-- Two nodes, of any stores that remember nothing wrong at and below them, have one hash exactly when
their trees differ in the places of tokens only. Such trees have one text and one outline. -/
theorem hash_identifies (H : List UInt8 → UInt64) (hr : f.Grounded r) (hs : g.Grounded s)
    (right : f.Recalls r) (right' : g.Recalls s)
    (short : ∀ t ∈ (f.tree r).tokens, t.lexeme.utf8ByteSize < 2 ^ 64)
    (short' : ∀ t ∈ (g.tree s).tokens, t.lexeme.utf8ByteSize < 2 ^ 64)
    (separates : (f.tree r).fingerprint.Separates H (g.tree s).fingerprint) :
    ∃ x f' y g', f.hash H r = .ok x f' ∧ g.hash H s = .ok y g' ∧
      (x = y ↔ (f.bare r).unplaced = (g.bare s).unplaced) ∧
        (x = y → f.render r = g.render s ∧ f.outline r = g.outline s) := by
  obtain ⟨f', asked⟩ := hr.hash_tree H right
  obtain ⟨g', asked'⟩ := hs.hash_tree H right'
  have addressable {t : Tree NodeRef} (short : ∀ k ∈ t.tokens, k.lexeme.utf8ByteSize < 2 ^ 64) :
      t.fingerprint.Addressable := by
    rw [Fingerprint.Addressable, t.lexemes_fingerprint]
    simpa using short
  have same : (f.tree r).fingerprint.hash H = (g.tree s).fingerprint.hash H ↔
      (f.bare r).unplaced = (g.bare s).unplaced := by
    rw [Fingerprint.hash_eq_iff H (addressable short) (addressable short') separates,
      ← Tree.fingerprint_bare (f.tree r), ← Tree.fingerprint_bare (g.tree s)]
    exact Tree.fingerprint_eq_iff
  refine ⟨_, f', _, g', asked, asked', same, fun equal => ?_⟩
  have alike := same.mp equal
  rw [← render_bare, ← render_bare, ← outline_bare, ← outline_bare]
  exact ⟨Tree.render_eq_of_unplaced alike, Tree.outline_eq_of_unplaced alike⟩

/-- XXH3 on the two messages of a text that is one name `a`, that of the name and that of the root. -/
def hashOfName (message : List UInt8) : UInt64 :=
  if message.length = 26 then 0x39a5fc977ebc8027 else 0xe388606aa052d6eb

/-- The name `a` has one hash at the start of a text and behind a blank. -/
theorem hash_identifies_moved :
    let f := ofScript ⟨"a", [⟨.symbol, "a", ⟨0, 0⟩⟩]⟩
    let g := ofScript ⟨" a", [⟨.whitespace, " ", ⟨0, 0⟩⟩, ⟨.symbol, "a", ⟨0, 1⟩⟩]⟩
    f.position Forest.root ≠ g.position Forest.root ∧
      (f.tree Forest.root).fingerprint.Separates hashOfName (g.tree Forest.root).fingerprint ∧
        ∃ x f' y g', f.hash hashOfName Forest.root = .ok x f' ∧ g.hash hashOfName Forest.root = .ok y g' ∧
          (x = y ↔ (f.bare Forest.root).unplaced = (g.bare Forest.root).unplaced) ∧
            (x = y → f.render Forest.root = g.render Forest.root ∧ f.outline Forest.root = g.outline Forest.root) := by
  intro f g
  have hf : f.Coherent := (leafRow_ofScript _).coherent
  have hg : g.Coherent := (leafRow_ofScript _).coherent
  have separates : (f.tree Forest.root).fingerprint.Separates hashOfName (g.tree Forest.root).fingerprint := by
    show ∀ x ∈ _, ∀ y ∈ _, _
    decide +kernel
  have moved : f.position Forest.root ≠ g.position Forest.root := by decide +kernel
  exact ⟨moved, separates, hash_identifies hashOfName (hf.grounded_node _) (hg.grounded_node _)
    (hf.recalls .root) (hg.recalls .root) (by decide +kernel) (by decide +kernel) separates⟩

end Forest

end SqlFold
