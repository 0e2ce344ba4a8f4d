/-
Patterns that play a layout.

A pattern plays a layout when its whole cycles hold the events of the layout, with each
cycle as a slot.  This says nothing of queries that begin or end inside a cycle, and yet
it goes from children to parents: a sequence asks its children for whole cycles only,
because every slot of it is one cycle of a child, played fast.

The number that goes with a layout bounds how finely it divides a cycle.  In a cycle far
out the divisions are counted with numbers that a double no longer holds, and a
sequence may take one child for another there.
-/
import CyclePatterns.Proofs.Binary64.Integer
import CyclePatterns.Proofs.Layout.Slots
import CyclePatterns.Proofs.Pattern.Moved
import CyclePatterns.Proofs.Time.Cycles
import Mathlib.Data.List.Perm.Basic

namespace CyclePatterns

variable {ρ α ι : Type}

/-- Cycles so near to zero that their divisions are counted exactly. -/
def InReach (divisions : Nat) (c : Int) : Prop :=
  (c.natAbs + 1) * divisions ≤ 2 ^ 53

theorem InReach.mono {d d' : Nat} {c : Int} (h : InReach d' c) (hle : d ≤ d') : InReach d c :=
  le_trans (Nat.mul_le_mul_left _ hle) h

/-- The divisions of a cycle are within reach as cycles of their own. -/
theorem InReach.division {n d i : Nat} {c : Int} (h : InReach (n * d) c) (hi : i < n) :
    InReach d (c * n + i) := by
  have hcount : (c * n + i).natAbs + 1 ≤ (c.natAbs + 1) * n := by
    rw [Nat.add_mul, Nat.one_mul]
    rcases Int.natAbs_eq c with hc | hc
    · rw [hc, ← Int.natCast_mul, Int.natAbs_natCast]
      omega
    · rw [hc, Int.neg_mul, ← Int.natCast_mul, Int.natAbs_neg, Int.natAbs_natCast]
      omega
  calc ((c * n + i).natAbs + 1) * d ≤ (c.natAbs + 1) * n * d := Nat.mul_le_mul_right d hcount
    _ = (c.natAbs + 1) * (n * d) := Nat.mul_assoc _ _ _
    _ ≤ 2 ^ 53 := h

theorem InReach.natAbs_lt {d : Nat} {c : Int} (h : InReach d c) (hd : 0 < d) :
    c.natAbs < 2 ^ 53 :=
  le_trans (Nat.le_mul_of_pos_right _ hd) h

/-- Two lists run through in either order give the same, each as often. -/
theorem flatMap_swap_perm {β γ δ : Type} (xs : List β) (ys : List γ) (f : β → γ → List δ) :
    (xs.flatMap fun x => ys.flatMap (f x)).Perm
      (ys.flatMap fun y => xs.flatMap fun x => f x y) := by
  induction xs with
  | nil => simp
  | cons x rest ih =>
      simp only [List.flatMap_cons]
      exact (ih.append_left _).trans (List.flatMap_append_perm ys _ _)

namespace Pattern

/-- Whole cycles of the pattern hold the events of the layout, as far as `divisions`
reach. -/
def Plays (p : Pattern ρ α) (layout : Layout α) (divisions : Nat) : Prop :=
  ∀ a b : Int, a < b → (∀ c ∈ Int.range a b, InReach divisions c) →
    (p.query ⟨a, b⟩).Perm ((Int.range a b).flatMap fun c => layout (Span.cycle c))

theorem Plays.mono {p : Pattern ρ α} {layout : Layout α} {d d' : Nat} (h : p.Plays layout d)
    (hle : d ≤ d') : p.Plays layout d' :=
  fun a b hab hreach => h a b hab fun c hc => (hreach c hc).mono hle

/-- One cycle of a pattern that plays a layout. -/
theorem Plays.cycle {p : Pattern ρ α} {layout : Layout α} {d : Nat} (h : p.Plays layout d)
    {c : Int} (hc : InReach d c) : (p.query (Span.cycle c)).Perm (layout (Span.cycle c)) := by
  have hone : Int.range c (c + 1) = [c] := by
    rw [range_succ (le_refl c)]
    simp [Int.range]
  have hcycle : Span.cycle c = ⟨c, (c + 1 : Int)⟩ := by
    simp [Span.cycle]
  have hperm := h c (c + 1) (Int.lt_succ c) (by simpa [hone] using hc)
  rwa [hone, List.flatMap_singleton, ← hcycle] at hperm

theorem plays_silence (d : Nat) : (silence : Pattern ρ α).Plays Layout.empty d := by
  intro a b _ _
  simp [silence, Layout.empty]

theorem plays_pure (value : α) (source : Option SourceSpan) (d : Nat) :
    (Pattern.pure value source : Pattern ρ α).Plays (Layout.event value source) d := by
  intro a b hab _
  refine List.Perm.of_eq ?_
  simp only [Pattern.pure, Span.cycles_whole hab, Layout.event]
  rw [List.map_map, List.map_eq_flatMap]
  refine List.flatMap_congr fun c _ => ?_
  simp [Span.cycle, Span.wholeCycle, Time.nextSam, Time.sam]

theorem Plays.stack {xs : List ι} {p : ι → Pattern ρ α} {layout : ι → Layout α} {d : Nat}
    (h : ∀ x ∈ xs, (p x).Plays (layout x) d) :
    (stack (xs.map p)).Plays (Layout.pile (xs.map layout)) d := by
  intro a b hab hreach
  simp only [Pattern.stack, Layout.pile, List.flatMap_map]
  refine (List.Perm.flatMap_left _ fun x hx => h x hx a b hab hreach).trans ?_
  exact flatMap_swap_perm xs _ fun x c => layout x (Span.cycle c)

/-! ### Several cycles in one -/

/-- Playing `k` times as fast looks at `k` times as many cycles. -/
theorem query_fast_whole (p : Pattern ρ α) {k : Nat} (hk : 0 < k) (a b : Int) :
    (p.fast (k : Rat)).query ⟨a, b⟩
      = (p.query ⟨(a * k : Int), (b * k : Int)⟩).map
          (Hap.mapSpan (Span.mapTime fun t => t / (k : Rat))) := by
  have hpos : (0 : Rat) < k := Nat.cast_pos.mpr hk
  have hspan : (⟨a, b⟩ : Span).mapTime (OrderIso.divRight₀ (k : Rat) hpos).symm
      = ⟨(a * k : Int), (b * k : Int)⟩ := by
    rw [Int.cast_mul, Int.cast_mul, Int.cast_natCast]
    rfl
  rw [fast_eq_moved hpos, query_moved, hspan]
  rfl

/-- A division of a cycle is a cycle of its own, played fast. -/
theorem map_cycle_eq_part {layout : Layout α} (hmov : layout.Movable) {k : Nat} (hk : 0 < k)
    (c : Int) (i : Nat) :
    (layout (Span.cycle (c * k + i))).map (Hap.mapSpan (Span.mapTime fun t => t / (k : Rat)))
      = layout ((Span.cycle c).part k i) := by
  have hne : (k : Rat) ≠ 0 := by exact_mod_cast Nat.ne_of_gt hk
  have hpart : (Span.cycle c).part k i
      = (Span.cycle (c * k + i)).mapTime fun t => t * (k : Rat)⁻¹ + 0 := by
    simp only [Span.part, Span.cycle, Span.mapTime, Span.duration, Span.mk.injEq]
    push_cast
    constructor
    · field_simp
      ring
    · field_simp
      ring
  rw [hpart, hmov]
  simp only [div_eq_mul_inv, add_zero]

theorem Plays.fast {p : Pattern ρ α} {layout : Layout α} {d k : Nat} (h : p.Plays layout d)
    (hmov : layout.Movable) (hk : 0 < k) :
    (p.fast (k : Rat)).Plays (layout.repeated k) (k * d) := by
  intro a b hab hreach
  have hlt : a * k < b * k := Int.mul_lt_mul_of_pos_right hab (by omega)
  have hinner : ∀ c ∈ Int.range (a * k) (b * k), InReach d c := by
    rw [range_mul (le_of_lt hab)]
    intro c hc
    obtain ⟨c', hc', hc⟩ := List.mem_flatMap.mp hc
    obtain ⟨i, hi, rfl⟩ := List.mem_map.mp hc
    exact (hreach c' hc').division (List.mem_range.mp hi)
  rw [query_fast_whole p hk]
  refine ((h _ _ hlt hinner).map _).trans (List.Perm.of_eq ?_)
  rw [range_mul (le_of_lt hab), List.flatMap_assoc, List.map_flatMap]
  refine List.flatMap_congr fun c _ => ?_
  rw [Layout.repeated, Span.parts, List.flatMap_map, List.flatMap_map, List.map_flatMap]
  exact List.flatMap_congr fun i _ => map_cycle_eq_part hmov hk c i

/-- Slowing down to one of `k` equal parts leaves room for `k` copies. -/
theorem Plays.slow {p : Pattern ρ α} {layout : Layout α} {d k : Nat} (h : p.Plays layout d)
    (hmov : layout.Movable) (hk : 0 < k) :
    (p.slow (1 / (k : Rat))).Plays (layout.repeated k) (k * d) := by
  rw [slow_eq_fast, one_div, inv_inv]
  exact h.fast hmov hk

/-! ### One after another -/

/-- As long as the number of the cycle is exact, the patterns take turns. -/
theorem turn_eq {n i : Nat} {c : Int} (hi : i < n) (hexact : (c * n + i).natAbs < 2 ^ 53) :
    turn n (c * n + i) = i := by
  have hmod : (c * n + i) % (n : Int) = i := by
    rw [Int.add_comm, Int.add_mul_emod_self_right]
    exact Int.emod_eq_of_lt (by omega) (by omega)
  rw [turn, Binary64.toInt64_ofInt hexact, hmod, Int.toNat_natCast]

/-- Each of the patterns takes its turns for its own cycles. -/
theorem query_inCycle_cycle {ps : List (Pattern ρ α)} {p : Pattern ρ α} {n i : Nat} {c : Int}
    (hn : ps.length = n) (hp : ps[i]? = some p) (hexact : (c * n + i).natAbs < 2 ^ 53) :
    (inCycle ps (c * n + i)).query (Span.cycle (c * n + i))
      = (p.query (Span.cycle c)).map (Hap.mapSpan (Span.mapTime fun t =>
          t * 1 + ((c * n + i - c : Int) : Rat))) := by
  subst hn
  obtain ⟨hi, -⟩ := List.getElem?_eq_some_iff.mp hp
  have hdiv : (c * ps.length + i) / (ps.length : Int) = c := by
    rw [Int.add_comm, Int.add_mul_ediv_right _ _ (by omega),
      Int.ediv_eq_zero_of_lt (by omega) (by omega), Int.zero_add]
  have hfloor : (((c * ps.length + i : Int) : Rat) / ps.length).floor = c :=
    (Rat.floor_intCast_div_natCast _ _).trans hdiv
  have hspan : (Span.cycle (c * ps.length + i)).mapTime
        (fun t => t - ((c * ps.length + i - c : Int) : Rat)) = Span.cycle c := by
    simp only [Span.mapTime, Span.cycle, Span.mk.injEq]
    push_cast
    constructor <;> ring
  simp only [inCycle, turn_eq hi hexact, hfloor, hp, Option.getD_some, later, withHapTime,
    withQueryTime, mul_one]
  rw [← Int.cast_sub, hspan]

/-- A movable layout is the same in every cycle. -/
theorem map_cycle_eq_cycle {layout : Layout α} (hmov : layout.Movable) (c c' : Int) :
    (layout (Span.cycle c)).map
        (Hap.mapSpan (Span.mapTime fun t => t * 1 + ((c' - c : Int) : Rat)))
      = layout (Span.cycle c') := by
  have hspan : (Span.cycle c).mapTime (fun t => t * 1 + ((c' - c : Int) : Rat)) = Span.cycle c' := by
    simp only [Span.mapTime, Span.cycle, Span.mk.injEq]
    push_cast
    constructor <;> ring
  rw [← hmov, hspan]

/-- The slots of a sequence, one or more, are the cycles of its children played fast. -/
theorem Plays.fast_slowcat {xs : List ι} {p : ι → Pattern ρ α} {layout : ι → Layout α} {d : Nat}
    (hne : xs ≠ []) (hd : 0 < d) (hmov : ∀ x ∈ xs, (layout x).Movable)
    (h : ∀ x ∈ xs, (p x).Plays (layout x) d) :
    ((slowcat (xs.map p)).fast (xs.length : Rat)).Plays (Layout.row (xs.map layout))
      (xs.length * d) := by
  intro a b hab hreach
  have hpos : 0 < xs.length := List.length_pos_of_ne_nil hne
  have hlt : a * xs.length < b * xs.length := Int.mul_lt_mul_of_pos_right hab (by omega)
  rw [query_fast_whole _ hpos]
  simp only [slowcat, Span.cycles_whole hlt, range_mul (le_of_lt hab), List.flatMap_map,
    List.flatMap_assoc, List.map_flatMap, Layout.row_eq_flatMap_range, List.length_map]
  refine List.Perm.flatMap_left _ fun c hc => List.Perm.flatMap_left _ fun i hi => ?_
  have hi : i < xs.length := List.mem_range.mp hi
  have hx : xs[i] ∈ xs := List.getElem_mem hi
  have hp : (xs.map p)[i]? = some (p xs[i]) := by simp [hi]
  have hlayout : (xs.map layout)[i]?.getD Layout.empty = layout xs[i] := by simp [hi]
  have hexact : (c * xs.length + i).natAbs < 2 ^ 53 := ((hreach c hc).division hi).natAbs_lt hd
  have hfloor : (Span.cycle (c * xs.length + i)).start.floor = c * xs.length + i :=
    Rat.floor_intCast _
  have hchild : InReach d c := (hreach c hc).mono (Nat.le_mul_of_pos_left d hpos)
  rw [hfloor, query_inCycle_cycle (List.length_map _) hp hexact, hlayout,
    ← map_cycle_eq_part (hmov _ hx) hpos, ← map_cycle_eq_cycle (hmov _ hx) c]
  exact (((h _ hx).cycle hchild).map _).map _

theorem fastcat_nil : (Pattern.fastcat [] : Pattern ρ α) = silence :=
  fast_of_nonpos (le_refl 0) _

/-- A sequence plays its children in a row. -/
theorem Plays.fastcat {xs : List ι} {p : ι → Pattern ρ α} {layout : ι → Layout α} {d : Nat}
    (hd : 0 < d) (hmov : ∀ x ∈ xs, (layout x).Movable)
    (h : ∀ x ∈ xs, (p x).Plays (layout x) d) :
    (Pattern.fastcat (xs.map p)).Plays (Layout.row (xs.map layout)) (max 1 xs.length * d) := by
  match xs with
  | [] =>
      rw [List.map_nil, fastcat_nil]
      exact plays_silence _
  | [x] =>
      have hrow : Layout.row ([x].map layout) = layout x := by
        funext slot
        simp [Layout.row, Span.part, Span.duration]
      rw [hrow]
      exact (h x List.mem_cons_self).mono (Nat.le_mul_of_pos_left d (by simp))
  | x :: y :: rest =>
      have hmax : max 1 (x :: y :: rest).length = (x :: y :: rest).length := by simp
      have hfast : Pattern.fastcat ((x :: y :: rest).map p)
          = (slowcat ((x :: y :: rest).map p)).fast ((x :: y :: rest).length : Rat) := by
        simp [Pattern.fastcat]
      rw [hmax, hfast]
      exact Plays.fast_slowcat (List.cons_ne_nil x (y :: rest)) hd hmov h

end Pattern

end CyclePatterns
