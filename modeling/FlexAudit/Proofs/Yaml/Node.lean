import FlexAudit.Proofs.Yaml.Fields

/-!
# Nodes of a record

The tokens of a record give the mapping from its names to its values. A list of texts has no tokens
for its start and end, so the token behind a value decides where it stops. Proved here:

* `takes_items`: the items of a list, up to a token that ends a value;
* `takes_field`, `takes_members`: the value of a field, the members of a record;
* `ofTokens?_nested`: the document of a record whose first field is a record of its own.
-/

namespace FlexAudit.Yaml.Node

open Scanner

/-! ## Reading in front of a rest -/

/-- Reads the tokens `ts` in front of `rest` and changes nothing else. -/
def Takes {α : Type} (x : Read α) (ts rest : List Token) (a : α) : Prop :=
  ∀ names nodes, x ⟨ts ++ rest, names, nodes⟩ = some (a, ⟨rest, names, nodes⟩)

theorem Takes.bind {α β : Type} {x : Read α} {f : α → Read β} {ts us rest : List Token} {a : α}
    {b : β} (hx : Takes x ts (us ++ rest) a) (hf : Takes (f a) us rest b) :
    Takes (x >>= f) (ts ++ us) rest b := by
  intro names nodes
  have hfirst := hx names nodes
  rw [← List.append_assoc] at hfirst
  exact (congrArg (Option.bind · _) hfirst).trans (hf names nodes)

theorem Takes.map {α β : Type} {x : Read α} {ts rest : List Token} {a : α}
    (hx : Takes x ts rest a) (f : α → β) : Takes (f <$> x) ts rest (f a) := by
  intro names nodes
  exact congrArg (Option.bind · _) (hx names nodes)

/-- Two parts, one behind the other. -/
theorem Takes.both {α β γ : Type} {x : Read α} {y : Read β} {ts us rest : List Token} {a : α}
    {b : β} (hx : Takes x ts (us ++ rest) a) (hy : Takes y us rest b) (g : α → β → γ) :
    Takes (do return g (← x) (← y)) (ts ++ us) rest (g a b) :=
  hx.bind (f := fun a => g a <$> y) (hy.map (g a))

variable (handles : List (String × String))

theorem takes_scalar (fuel : Nat) (block indentless : Bool) (style : Style) (text : String)
    (rest : List Token) :
    Takes (node handles (fuel + 1) block indentless) [.scalar style text] rest
      (.scalar style none text) :=
  fun _ _ => rfl

theorem takes_emptyList (fuel : Nat) (block indentless : Bool) (rest : List Token) :
    Takes (node handles (fuel + 2) block indentless) [.flowSequenceStart, .flowSequenceEnd] rest
      (.sequence []) :=
  fun _ _ => rfl

theorem takes_mapping {fuel : Nat} (indentless : Bool) {ts rest : List Token}
    {members : List (Node × Node)} (h : Takes (blockMembers handles fuel) ts rest members) :
    Takes (node handles (fuel + 1) true indentless) (.blockMappingStart :: ts) rest
      (.mapping members) :=
  h.map Node.mapping

/-! ## Lists -/

/-- The node of a text that was written in the style chosen for it. -/
def ofText (text : String) : Node :=
  .scalar (styleOf text.toList) none text

theorem takes_items {items : List String} {fuel : Nat} (hfuel : items.length < fuel)
    {rest : List Token} (hrest : rest.head?.any endsBlockValue = true) :
    Takes (indentlessItems handles fuel)
      (items.flatMap fun item => [.blockEntry, Field.textToken item]) rest (items.map ofText) := by
  obtain ⟨fuel, rfl⟩ := Nat.exists_eq_add_one_of_ne_zero (Nat.ne_zero_of_lt hfuel)
  induction items generalizing fuel with
  | nil =>
    intro names nodes
    obtain _ | ⟨t, rest⟩ := rest
    · cases hrest
    · cases t with
      | key | value | blockEnd => rfl
      | _ => cases hrest
  | cons item items ih =>
    simp only [List.length_cons] at hfuel
    obtain ⟨fuel, rfl⟩ := Nat.exists_eq_add_one_of_ne_zero (n := fuel) (by omega)
    have hitem := takes_scalar handles fuel true false (styleOf item.toList) item
    have hitems := ih fuel (by omega)
    -- Behind its entry, an item is read as any node.
    exact (hitem _).both hitems List.cons

/-! ## Records -/

def ofField : Field → Node
  | .word cs _ _ => .scalar .plain none (String.ofList cs)
  | .text t => ofText t
  | .texts items => .sequence (items.map ofText)

theorem takes_field (f : Field) {fuel : Nat} (hfuel : f.tokens.length < fuel) {rest : List Token}
    (hrest : rest.head?.any endsBlockValue = true) :
    Takes (node handles fuel true true) f.tokens rest (ofField f) := by
  obtain ⟨fuel, rfl⟩ := Nat.exists_eq_add_one_of_ne_zero (Nat.ne_zero_of_lt hfuel)
  cases f with
  | word cs => exact takes_scalar handles fuel true true .plain (String.ofList cs) rest
  | text t => exact takes_scalar handles fuel true true (styleOf t.toList) t rest
  | texts items =>
    cases items with
    | nil =>
      have htwo : 2 < fuel + 1 := hfuel
      obtain ⟨fuel, rfl⟩ := Nat.exists_eq_add_one_of_ne_zero (n := fuel) (by omega)
      exact takes_emptyList handles fuel true true rest
    | cons item items =>
      have hlength : (item :: items).length < fuel := by
        simp [Field.tokens] at hfuel ⊢
        omega
      exact (takes_items handles hlength hrest).map Node.sequence

def ofName (name : String) : Node :=
  .scalar .plain none name

/-- A key, its value and the members behind it. -/
theorem takes_member {fuel : Nat} (name : String) {t : Token} {ts us rest : List Token}
    (ht : endsBlockValue t = false) {value : Node} {members : List (Node × Node)}
    (hvalue : Takes (node handles (fuel + 1) true true) (t :: ts) (us ++ rest) value)
    (hmembers : Takes (blockMembers handles (fuel + 1)) us rest members) :
    Takes (blockMembers handles (fuel + 2)) (keyTokens name ++ (t :: ts) ++ us) rest
      ((ofName name, value) :: members) := by
  intro names nodes
  have hkey : blockMembers handles (fuel + 2)
      ⟨keyTokens name ++ (t :: ts) ++ us ++ rest, names, nodes⟩ =
      (do let value ← if endsBlockValue t then pure Node.empty
            else node handles (fuel + 1) true true
          return (ofName name, value) :: (← blockMembers handles (fuel + 1)) : Read _)
        ⟨(t :: ts) ++ us ++ rest, names, nodes⟩ := rfl
  rw [hkey, ht]
  exact hvalue.both hmembers (fun v ms => (ofName name, v) :: ms) names nodes

def ofMembers (members : Members) : List (Node × Node) :=
  members.map fun m => (ofName m.1, ofField m.2)

/-- A value starts with a token that does not end one. -/
theorem tokens_eq_cons (f : Field) : ∃ t ts, f.tokens = t :: ts ∧ endsBlockValue t = false := by
  cases f with
  | word | text => exact ⟨_, _, rfl, rfl⟩
  | texts items => cases items <;> exact ⟨_, _, rfl, rfl⟩

/-- A value ends in front of the members behind it. -/
theorem endsBlockValue_members (members : Members) (rest : List Token) :
    (members.tokens ++ [Token.blockEnd] ++ rest).head?.any endsBlockValue = true := by
  cases members <;> rfl

theorem takes_members {members : Members} {fuel : Nat} (hfuel : members.tokens.length + 1 < fuel)
    (rest : List Token) :
    Takes (blockMembers handles fuel) (members.tokens ++ [.blockEnd]) rest (ofMembers members) := by
  induction members generalizing fuel with
  | nil =>
    obtain ⟨fuel, rfl⟩ := Nat.exists_eq_add_one_of_ne_zero (Nat.ne_zero_of_lt hfuel)
    exact fun _ _ => rfl
  | cons m members ih =>
    obtain ⟨name, f⟩ := m
    have hlength : (keyTokens name ++ f.tokens ++ Members.tokens members).length + 1 < fuel := hfuel
    simp only [List.length_append, keyTokens, List.length_cons, List.length_nil] at hlength
    obtain ⟨fuel, rfl⟩ := Nat.exists_eq_add_of_le' (show 2 ≤ fuel by omega)
    have hvalue := takes_field handles f (show _ < fuel + 1 by omega)
      (endsBlockValue_members members rest)
    have hmembers := ih (show _ < fuel + 1 by omega)
    obtain ⟨t, ts, htokens, ht⟩ := tokens_eq_cons f
    rw [Members.tokens_cons, htokens, List.append_assoc]
    rw [htokens] at hvalue
    exact takes_member handles name ht hvalue hmembers

/-! ## Documents -/

/-- A stream that holds a mapping. -/
theorem ofTokens?_mapping {ts : List Token} {fuel : Nat} (hfuel : fuel = 3 * ts.length + 8)
    {members : List (Node × Node)}
    (h : Takes (blockMembers standardHandles fuel) ts [.streamEnd] members) :
    Document.ofTokens? (.blockMappingStart :: ts ++ [.streamEnd]) =
      some ⟨some (.mapping members), []⟩ := by
  have hlength :
      3 * (Token.blockMappingStart :: ts ++ [Token.streamEnd]).length + 3 = fuel + 1 := by
    simp
    omega
  have hcontent : Document.content standardHandles (.blockMappingStart :: ts ++ [.streamEnd]) =
      some (⟨some (.mapping members), []⟩, [.streamEnd]) := by
    rw [Document.content, hlength]
    exact congrArg (Option.bind · _) (takes_mapping standardHandles false h [] [])
  exact congrArg (Option.bind · _) hcontent

/-- A record from the nodes of its members. -/
def record (members : List (String × Node)) : Node :=
  .mapping (members.map fun m => (ofName m.1, m.2))

/-- The document of a record whose first field is a record of its own. -/
theorem ofTokens?_nested (name : String) (inner outer : Members) :
    Document.ofTokens? (.blockMappingStart :: keyTokens name ++ (.blockMappingStart :: inner.tokens)
        ++ (.blockEnd :: outer.tokens) ++ [.blockEnd, .streamEnd]) =
      some ⟨some (record ((name, record (inner.map fun m => (m.1, ofField m.2))) ::
        outer.map fun m => (m.1, ofField m.2))), []⟩ := by
  let ts := keyTokens name ++ (.blockMappingStart :: (inner.tokens ++ [.blockEnd])) ++
    (outer.tokens ++ [.blockEnd])
  have hlength : inner.tokens.length + outer.tokens.length < ts.length := by
    simp [ts]
    omega
  have houter : Takes (blockMembers standardHandles (3 * ts.length + 6 + 1))
      (outer.tokens ++ [.blockEnd]) [.streamEnd] (ofMembers outer) :=
    takes_members _ (by omega) _
  have hinner : Takes (blockMembers standardHandles (3 * ts.length + 6))
      (inner.tokens ++ [.blockEnd]) (outer.tokens ++ [.blockEnd] ++ [.streamEnd])
      (ofMembers inner) :=
    takes_members _ (by omega) _
  have hmembers := takes_member standardHandles name rfl (takes_mapping _ true hinner) houter
  simpa [ts, record, ofMembers, Function.comp_def] using ofTokens?_mapping rfl hmembers

end FlexAudit.Yaml.Node
