/-
Dividing a slot of time.

A layout says which events fill a slot.  It knows nothing of cycles, queries or speeds:
a row gives each of its layouts an equal part of the slot, a pile gives the whole slot to
every one, and a repetition plays one layout in each of several equal parts.

A layout built this way moves with its slot: stretching or shifting the slot stretches or
shifts the events, and nothing else changes.  It is what lets a cycle of a pattern be
compared with any other cycle of it.
-/
import CyclePatterns.Pattern.Basic
import Mathlib.Algebra.Order.Field.Rat
import Mathlib.Data.List.Basic
import Mathlib.Tactic.Ring

namespace CyclePatterns

variable {α : Type}

/-! ### Parts of a span -/

namespace Span

/-- Part number `i` of `n` equal parts. -/
def part (s : Span) (n i : Nat) : Span :=
  ⟨s.start + s.duration * i / n, s.start + s.duration * (i + 1) / n⟩

/-- The `n` equal parts, in order. -/
def parts (s : Span) (n : Nat) : List Span :=
  (List.range n).map (s.part n)

theorem part_mapTime (a b : Rat) (s : Span) (n i : Nat) :
    (s.mapTime fun t => t * a + b).part n i = (s.part n i).mapTime fun t => t * a + b := by
  simp only [part, mapTime, duration, Span.mk.injEq]
  constructor <;> ring

end Span

/-- Which events fill a slot. -/
abbrev Layout (α : Type) := Span → List (Hap α)

namespace Layout

/-- Nothing sounds. -/
def empty : Layout α :=
  fun _ => []

/-- One event that fills the slot. -/
def event (value : α) (source : Option SourceSpan) : Layout α :=
  fun slot => [⟨some slot, slot, value, source⟩]

/-- One after another, each in its equal part of the slot. -/
def row (layouts : List (Layout α)) : Layout α :=
  fun slot => layouts.zipIdx.flatMap fun (layout, i) => layout (slot.part layouts.length i)

/-- All at once, each in the whole slot. -/
def pile (layouts : List (Layout α)) : Layout α :=
  fun slot => layouts.flatMap fun layout => layout slot

/-- One layout side by side with itself, `n` times. -/
def repeated (n : Nat) (layout : Layout α) : Layout α :=
  fun slot => (slot.parts n).flatMap layout

/-- A row, read off the numbers of its parts. -/
theorem row_eq_flatMap_range (layouts : List (Layout α)) (slot : Span) :
    row layouts slot = (List.range layouts.length).flatMap fun i =>
      (layouts[i]?.getD empty) (slot.part layouts.length i) := by
  have hzip : layouts.zipIdx
      = (List.range layouts.length).map fun i => (layouts[i]?.getD empty, i) := by
    refine List.ext_getElem (by simp) fun i hi hi' => ?_
    have hlt : i < layouts.length := by simpa using hi
    simp [hlt]
  rw [row, hzip, List.flatMap_map]

/-! ### Layouts move with their slot -/

/-- Stretching and shifting the slot stretches and shifts the events. -/
def Movable (layout : Layout α) : Prop :=
  ∀ (a b : Rat) (slot : Span), layout (slot.mapTime fun t => t * a + b)
    = (layout slot).map (Hap.mapSpan (Span.mapTime fun t => t * a + b))

theorem movable_empty : (empty : Layout α).Movable :=
  fun _ _ _ => rfl

theorem movable_event (value : α) (source : Option SourceSpan) : (event value source).Movable :=
  fun _ _ _ => rfl

theorem movable_getD {layouts : List (Layout α)} (h : ∀ layout ∈ layouts, layout.Movable)
    (i : Nat) : (layouts[i]?.getD empty).Movable := by
  cases hi : layouts[i]? with
  | none => exact movable_empty
  | some layout => exact h layout (List.mem_of_getElem? hi)

theorem movable_row {layouts : List (Layout α)} (h : ∀ layout ∈ layouts, layout.Movable) :
    (row layouts).Movable := by
  intro a b slot
  rw [row_eq_flatMap_range, row_eq_flatMap_range, List.map_flatMap]
  refine List.flatMap_congr fun i _ => ?_
  rw [Span.part_mapTime, movable_getD h i]

theorem movable_pile {layouts : List (Layout α)} (h : ∀ layout ∈ layouts, layout.Movable) :
    (pile layouts).Movable := by
  intro a b slot
  rw [pile, pile, List.map_flatMap]
  exact List.flatMap_congr fun layout hlayout => h layout hlayout a b slot

theorem movable_repeated {layout : Layout α} (h : layout.Movable) (n : Nat) :
    (repeated n layout).Movable := by
  intro a b slot
  rw [repeated, repeated, Span.parts, Span.parts, List.flatMap_map, List.flatMap_map,
    List.map_flatMap]
  refine List.flatMap_congr fun i _ => ?_
  rw [Span.part_mapTime, h]

end Layout

end CyclePatterns
