/-
The same tree at other places.

Making nodes of what notation says never looks at places, it only hands them on.  So with other
places in what is said there are other places in the nodes, and in an error, and nothing else
changes: neither whether there is an error, nor which.
-/
import CyclePatterns.Proofs.Notation.Local

namespace CyclePatterns

mutual
/-- A tree with other places. -/
def Node.located (g : SourceSpan → SourceSpan) : Node → Node
  | .pattern alignment children => .pattern alignment (locatedAll g children)
  | .scalar value options location => .scalar value options (location.map g)
  | .group child options location => .group (child.located g) options (location.map g)
  | .stretch amount (some child) => .stretch amount (some (child.located g))
  | .stretch amount none => .stretch amount none
  | .scale name (some child) => .scale name (some (child.located g))
  | .scale name none => .scale name none
  | .unknown kind children => .unknown kind (locatedAll g children)
termination_by structural n => n

/-- Several trees with other places. -/
def locatedAll (g : SourceSpan → SourceSpan) : List Node → List Node
  | [] => []
  | n :: rest => n.located g :: locatedAll g rest
termination_by structural ns => ns
end

theorem locatedAll_eq_map (g : SourceSpan → SourceSpan) (ns : List Node) :
    locatedAll g ns = ns.map (Node.located g) := by
  induction ns with
  | nil => rfl
  | cons n rest ih => rw [locatedAll, ih, List.map_cons]

namespace Notation

variable {α β γ δ : Type}

/-- An error at another place. -/
def NotationError.located (g : SourceSpan → SourceSpan) : NotationError → NotationError
  | grammar offset => .grammar offset
  | number place => .number (g place)
  | count place => .count (g place)

/-- A result with other places: those in an error, and those in what there is. -/
def located (g : SourceSpan → SourceSpan) (f : α → β) :
    Except NotationError α → Except NotationError β
  | .ok a => .ok (f a)
  | .error e => .error (e.located g)

section

variable {g : SourceSpan → SourceSpan}

theorem located_bind {f : α → β} {f' : γ → δ} {r : Except NotationError α}
    {k : α → Except NotationError γ} {k' : β → Except NotationError δ}
    (h : ∀ a, k' (f a) = located g f' (k a)) :
    (located g f r >>= k') = located g f' (r >>= k) := by
  cases r with
  | error e => rfl
  | ok a => exact h a

theorem located_bind_pure {f : α → β} {f' : γ → δ} {r : Except NotationError α}
    {k : α → γ} {k' : β → δ} (h : ∀ a, k' (f a) = f' (k a)) :
    (located g f r >>= fun b => pure (k' b)) = located g f' (r >>= fun a => pure (k a)) :=
  located_bind fun a => congrArg Except.ok (h a)

end

/-! ### Other places make no other elements -/

section

variable (g : SourceSpan → SourceSpan) (lead : Nat)

/-- Where a place is once it is changed and counted from behind a lead. -/
abbrev changed (place : SourceSpan) : SourceSpan :=
  placeFrom lead (g place)

theorem toRat_located (n : Numeral) :
    (n.located g).toRat lead = located (changed g lead) id (n.toRat 0) := by
  unfold Numeral.toRat Numeral.located
  dsimp only
  cases Fraction.ofChars? n.text <;> rfl

theorem toRecip_located (n : Numeral) :
    (n.located g).toRecip lead = located (changed g lead) id (n.toRecip 0) := by
  unfold Numeral.toRecip
  rw [toRat_located]
  exact located_bind_pure fun _ => rfl

theorem toCount_located (n : Numeral) :
    (n.located g).toCount lead = located (changed g lead) id (n.toCount 0) := by
  unfold Numeral.toCount Numeral.located
  dsimp only
  cases Text.digits? n.text with
  | none => rfl
  | some k =>
      dsimp only
      split <;> rfl

theorem traverse_located {f f' : Numeral → Except NotationError α} (n : Option Numeral)
    (h : ∀ n, f' (n.located g) = located (changed g lead) id (f n)) :
    traverse f' (n.map (Numeral.located g)) = located (changed g lead) id (traverse f n) := by
  cases n with
  | none => rfl
  | some n =>
      rw [Option.map_some, traverse, traverse, h]
      cases f n <;> rfl

variable {g lead} {r : SourceSpan → SourceSpan}

theorem adjust_located (f : Options → Options) (element : Node) :
    adjust f (element.located r) = (adjust f element).located r := by
  cases element with
  | scalar value options location => rfl
  | group child options location => rfl
  | pattern alignment children => rfl
  | stretch amount child => cases child <;> rfl
  | scale name child => cases child <;> rfl
  | unknown kind children => rfl

theorem options_located (n : Node) : (n.located r).options = n.options := by
  cases n with
  | stretch amount child => cases child <;> rfl
  | scale name child => cases child <;> rfl
  | _ => rfl

theorem locationOf_located (n : Node) : locationOf (n.located r) = (locationOf n).map r := by
  cases n with
  | stretch amount child => cases child <;> rfl
  | scale name child => cases child <;> rfl
  | _ => rfl

theorem operate_located (o : Operator) (element : Node) :
    operate o (element.located r) = (operate o element).located r := by
  unfold operate
  rw [options_located, locationOf_located]
  cases element.options.bind (·.operator) with
  | none => exact adjust_located _ element
  | some _ => rfl

variable (g lead)

theorem apply_located (element : Node) (s : Suffix) :
    (s.located g).apply lead (element.located (changed g lead))
      = located (changed g lead) (Node.located (changed g lead)) (s.apply 0 element) := by
  cases s with
  | fast n =>
      rw [Suffix.located, Suffix.apply, toRecip_located]
      exact located_bind_pure fun _ => operate_located _ _
  | slow n =>
      rw [Suffix.located, Suffix.apply, toRat_located]
      exact located_bind_pure fun _ => operate_located _ _
  | fixedStep n =>
      rw [Suffix.located, Suffix.apply, toRat_located]
      exact located_bind_pure fun _ => operate_located _ _
  | degrade n =>
      rw [Suffix.located, Suffix.apply, traverse_located g lead n fun _ => toRat_located g lead _]
      exact located_bind_pure fun _ => operate_located _ _
  | weight n =>
      rw [Suffix.located, Suffix.apply, toRat_located]
      exact located_bind_pure fun _ => adjust_located _ _
  | replicate n =>
      rw [Suffix.located, Suffix.apply, traverse_located g lead n fun _ => toCount_located g lead _]
      exact located_bind_pure fun _ => adjust_located _ _
  | euclid pulses steps rotation =>
      rw [Suffix.located, Suffix.apply, toCount_located, toCount_located,
        traverse_located g lead rotation fun _ => toCount_located g lead _]
      refine located_bind fun p => located_bind fun s => located_bind_pure fun r => ?_
      exact adjust_located _ _

theorem applyAll_located (element : Node) (ss : List Suffix) :
    Suffix.applyAll lead (element.located (changed g lead)) (ss.map (Suffix.located g))
      = located (changed g lead) (Node.located (changed g lead))
          (Suffix.applyAll 0 element ss) := by
  induction ss generalizing element with
  | nil => rfl
  | cons s rest ih =>
      rw [List.map_cons, Suffix.applyAll, Suffix.applyAll, apply_located]
      exact located_bind fun element => ih element

theorem ofLayers_located (ns : List Node) :
    ofLayers (ns.map (Node.located r)) = (ofLayers ns).located r := by
  have hstack : ∀ ns : List Node, (Node.stack ns).located r = Node.stack (ns.map (Node.located r)) := by
    intro ns
    rw [Node.stack, Node.stack, Node.located, locatedAll_eq_map]
  cases ns with
  | nil => exact (hstack []).symm
  | cons n ns =>
      cases ns with
      | nil => rfl
      | cons m ns => exact (hstack (n :: m :: ns)).symm

mutual
/-- A step at another place is the same element at another place. -/
theorem toNode_located (s : Step) :
    (s.located g).toNode lead
      = located (changed g lead) (Node.located (changed g lead)) (s.toNode 0) := by
  cases s with
  | word text place suffixes =>
      rw [Step.located, Step.toNode, Step.toNode]
      exact applyAll_located g lead (.scalar (.text (String.ofList text)) none (some place)) suffixes
  | bracket layers place suffixes =>
      rw [Step.located, Step.toNode, Step.toNode, layersToNodes_located]
      refine located_bind fun ns => ?_
      rw [ofLayers_located]
      exact applyAll_located g lead (.group (ofLayers ns) none (some place)) suffixes

theorem stepsToNodes_located (ss : List Step) :
    stepsToNodes lead (stepsLocated g ss)
      = located (changed g lead) (List.map (Node.located (changed g lead)))
          (stepsToNodes 0 ss) := by
  cases ss with
  | nil => rfl
  | cons s rest =>
      rw [stepsLocated, stepsToNodes, stepsToNodes, toNode_located, stepsToNodes_located]
      exact located_bind fun n => located_bind_pure fun ns => rfl

theorem layersToNodes_located (ls : List (List Step)) :
    layersToNodes lead (layersLocated g ls)
      = located (changed g lead) (List.map (Node.located (changed g lead)))
          (layersToNodes 0 ls) := by
  cases ls with
  | nil => rfl
  | cons ss rest =>
      rw [layersLocated, layersToNodes, layersToNodes, stepsToNodes_located,
        layersToNodes_located]
      refine located_bind fun n => located_bind_pure fun ns => ?_
      rw [List.map_cons, Node.sequence, Node.sequence, Node.located, locatedAll_eq_map]
end

end

/-! ### The same places -/

theorem Suffix.located_id (s : Suffix) : s.located id = s := by
  have hoption : ∀ n : Option Numeral, n.map (Numeral.located id) = n :=
    fun n => (congrFun Option.map_id n : n.map id = n)
  cases s with
  | degrade n => exact congrArg Suffix.degrade (hoption n)
  | replicate n => exact congrArg Suffix.replicate (hoption n)
  | euclid pulses steps rotation => exact congrArg (Suffix.euclid pulses steps) (hoption rotation)
  | _ => rfl

theorem map_suffix_located_id (ss : List Suffix) : ss.map (Suffix.located id) = ss := by
  rw [List.map_congr_left fun s _ => s.located_id, List.map_id']

mutual
theorem step_located_id (s : Step) : s.located id = s := by
  cases s with
  | word text place suffixes => rw [Step.located, map_suffix_located_id, id]
  | bracket layers place suffixes =>
      rw [Step.located, map_suffix_located_id, layersLocated_id, id]

theorem stepsLocated_id (ss : List Step) : stepsLocated id ss = ss := by
  cases ss with
  | nil => rfl
  | cons s rest => rw [stepsLocated, step_located_id, stepsLocated_id]

theorem layersLocated_id (ls : List (List Step)) : layersLocated id ls = ls := by
  cases ls with
  | nil => rfl
  | cons ss rest => rw [layersLocated, stepsLocated_id, layersLocated_id]
end

end Notation

end CyclePatterns
