/-
Sequences of sequences.

To put the steps of a sequence into groups of one size changes nothing: a group takes as much
of the cycle as its steps take together, and within it they take as much as before.  The pieces
that a query falls into are the same, whether they are found at once or first for the groups
and then in each of them, and so is the step that plays in a piece and the moment of its own
time that it is asked about.

The numbers of the cycles go through a double, so all this is said of queries that stay where
those are held exactly.
-/
import CyclePatterns.Proofs.Pattern.Speed
import CyclePatterns.Proofs.Pattern.Turns

namespace CyclePatterns

variable {ρ α : Type}

/-! ### Cycles within cycles -/

namespace Span

variable {s : Span}

/-- A span lies in the cycles that it is cut into. -/
theorem subset_cycles (s : Span) : s ⊆ ⟨s.start.floor, s.cycleEnd⟩ := by
  intro m hm
  obtain ⟨hlow, hhigh⟩ := floor_mem_range hm
  have hle : (s.start.floor : Rat) ≤ m.floor := by exact_mod_cast hlow
  have hlt : (m.floor : Rat) + 1 ≤ s.cycleEnd := by exact_mod_cast hhigh
  obtain ⟨hfloor, hnext⟩ := floor_eq_iff.mp (rfl : m.floor = m.floor)
  exact Or.inl ⟨hle.trans hfloor, lt_of_lt_of_le hnext hlt⟩

/-- The pieces of a span are what it has in common with the cycles around it. -/
theorem cycles_eq_filterMap {a b : Int} (hs : s.start ≤ s.stop) (hab : a < b)
    (h : s ⊆ ⟨a, b⟩) :
    s.cycles = (Int.range a b).filterMap fun c => (cycle c).intersection s := by
  have hle : (⟨a, b⟩ : Span).start ≤ (⟨a, b⟩ : Span).stop := Int.cast_le.mpr (le_of_lt hab)
  rw [cycles_of_subset hs hle h, cycles_whole hab, List.filterMap_map]
  rfl

/-- With `k` cycles in the place of one, a piece falls into those that are in its place. -/
theorem cycles_scaled (s : Span) {k : Nat} (hk : 0 < k) :
    (s.mapTime (· * (k : Rat))).cycles
      = s.cycles.flatMap fun piece => (piece.mapTime (· * (k : Rat))).cycles := by
  have hpos : (0 : Rat) < k := by exact_mod_cast hk
  let e : Rat ≃o Rat := (OrderIso.divRight₀ (k : Rat) hpos).symm
  have hwhole : ∀ a b : Int,
      (⟨a, b⟩ : Span).mapTime e = ⟨((a * k : Int) : Rat), ((b * k : Int) : Rat)⟩ := by
    intro a b
    push_cast
    rfl
  have hscaled : ∀ {a b : Int} {t : Span}, a < b → t.start ≤ t.stop → t ⊆ ⟨a, b⟩ →
      (t.mapTime e).cycles = (Int.range (a * k) (b * k)).filterMap fun c =>
        (cycle c).intersection (t.mapTime e) := by
    intro a b t hab ht hsub
    refine cycles_eq_filterMap (e.monotone ht) (Int.mul_lt_mul_of_pos_right hab (by omega)) ?_
    rw [← hwhole]
    exact (mapTime_subset_mapTime e).mpr hsub
  show (s.mapTime e).cycles = s.cycles.flatMap fun piece => (piece.mapTime e).cycles
  rcases lt_or_ge s.stop s.start with hs | hs
  · have hscaledEnds : (s.mapTime e).stop < (s.mapTime e).start := e.strictMono hs
    rw [cycles_of_reversed hs, cycles_of_reversed hscaledEnds, List.flatMap_nil]
  have hends := floor_lt_cycleEnd s
  rw [hscaled hends hs (subset_cycles s), range_mul (le_of_lt hends), List.filterMap_flatMap,
    cycles_eq_map hs, List.flatMap_map]
  refine List.flatMap_congr fun c hc => ?_
  obtain ⟨hlow, hhigh⟩ := Int.mem_range_iff.mp hc
  obtain ⟨hshare, hmem⟩ := mem_shareIn hs hlow hhigh
  have hsub : s.shareIn c ⊆ ⟨c, ((c + 1 : Int) : Rat)⟩ := by
    intro m hm
    push_cast
    exact Or.inl (floor_eq_iff.mp ((hmem m).mp hm).2)
  rw [hscaled (lt_add_one c) hshare hsub, range_mul (le_of_lt (lt_add_one c)),
    range_succ (le_refl c)]
  simp only [Int.range, sub_self, Int.toNat_zero, List.range_zero, List.map_nil, List.nil_append,
    List.flatMap_singleton]
  refine List.filterMap_congr fun d hd => intersection_congr fun m => and_congr_right fun hm => ?_
  rw [mem_mapTime, mem_mapTime, hmem]
  refine (and_iff_left ?_).symm
  -- Whatever is in the cycle `d` was in the cycle `c` before there were `k` in its place.
  obtain ⟨i, hi, rfl⟩ := List.mem_map.mp hd
  have hi : (i : Rat) + 1 ≤ k := by exact_mod_cast List.mem_range.mp hi
  have hbounds := (mem_iff_of_lt (lt_add_one _)).mp hm
  simp only [cycle] at hbounds
  push_cast at hbounds
  have hsymm : e.symm m = m / k := rfl
  rw [hsymm, floor_eq_iff, le_div_iff₀ hpos, div_lt_iff₀ hpos]
  constructor <;> nlinarith [(Nat.cast_nonneg i : (0 : Rat) ≤ i)]

theorem floor_sub_intCast (t : Rat) (d : Int) : (t - (d : Rat)).floor = t.floor - d :=
  Int.floor_sub_intCast t d

/-- The cycle of a moment is told by the one that it comes to with `k` cycles for one. -/
theorem floor_mul_ediv (t : Rat) {k : Nat} (hk : 0 < k) : (t * k).floor / (k : Int) = t.floor := by
  have hpos : (0 : Rat) < k := by exact_mod_cast hk
  refine eq_of_forall_le_iff fun z => ?_
  rw [Int.le_ediv_iff_mul_le (by omega), Rat.le_floor_iff, Rat.le_floor_iff, Int.cast_mul,
    Int.cast_natCast, mul_le_mul_iff_left₀ hpos]

/-- Cutting does not look at the numbers of cycles. -/
theorem cycles_shifted (s : Span) (d : Int) :
    (s.mapTime (· - (d : Rat))).cycles = s.cycles.map (mapTime (· - (d : Rat))) := by
  have hceil : (s.stop - (d : Rat)).ceil = s.stop.ceil - d :=
    eq_of_forall_ge_iff fun z => by
      rw [Rat.ceil_le_iff, sub_le_iff_le_add, sub_le_iff_le_add, Rat.ceil_le_iff, Int.cast_add]
  have hnumbers : (s.mapTime (· - (d : Rat))).cycleNumbers = s.cycleNumbers.map (· - d) := by
    simp only [cycleNumbers, mapTime, floor_sub_intCast, hceil, sub_sub_sub_cancel_right,
      List.map_map]
    exact List.map_congr_left fun i _ => sub_add_eq_add_sub _ _ _
  have hshare : ∀ c, (s.mapTime (· - (d : Rat))).shareIn (c - d)
      = (s.shareIn c).mapTime (· - (d : Rat)) := by
    intro c
    simp only [shareIn, mapTime, Fraction.smaller, Fraction.larger]
    push_cast
    grind
  rw [cycles, cycles, hnumbers]
  simp only [mapTime, sub_lt_sub_iff_right, sub_left_inj]
  split
  · rw [List.map_map, List.map_map]
    exact List.map_congr_left fun c _ => hshare c
  · split
    · rfl
    · rfl

end Span

/-! ### Blocks of one length -/

section

variable {β : Type} {blocks : List (List β)} {k : Nat}
  (hlength : ∀ block ∈ blocks, block.length = k)

include hlength

theorem length_flatten_blocks : blocks.flatten.length = blocks.length * k := by
  rw [List.length_flatten, List.map_congr_left hlength, List.map_const', List.sum_replicate]
  rfl

/-- Number `i` of block `j` is so far behind the blocks in front. -/
theorem getElem?_flatten_blocks {i j : Nat} (hi : i < k) :
    blocks.flatten[j * k + i]? = blocks[j]?.bind fun block => block[i]? := by
  induction blocks generalizing j with
  | nil => rfl
  | cons block rest ih =>
      have hblock : block.length = k := hlength block List.mem_cons_self
      cases j with
      | zero =>
          rw [List.flatten_cons, Nat.zero_mul, Nat.zero_add,
            List.getElem?_append_left (hblock ▸ hi)]
          rfl
      | succ j =>
          have hbehind : block.length ≤ (j + 1) * k + i := by
            rw [hblock, Nat.succ_mul]
            omega
          rw [List.flatten_cons, List.getElem?_append_right hbehind, List.getElem?_cons_succ,
            ← ih fun b hb => hlength b (List.mem_cons_of_mem _ hb)]
          congr 1
          rw [hblock, Nat.succ_mul]
          omega

end

/-! ### Turns within turns -/

namespace Pattern

theorem query_later (d : Rat) (p : Pattern ρ α) (s : Span) :
    (p.later d).query s
      = (p.query (s.mapTime (· - d))).map (Hap.mapSpan (Span.mapTime (· + d))) := rfl

theorem later_later (a b : Rat) (p : Pattern ρ α) : (p.later a).later b = p.later (a + b) := by
  have htwice : (OrderIso.addRight a).trans (OrderIso.addRight b) = OrderIso.addRight (a + b) := by
    ext t
    exact add_assoc t a b
  rw [later_eq_moved, later_eq_moved, later_eq_moved, moved_moved, htwice]

/-- How many cycles a pattern that is one of `n` has behind it that were not its own. -/
def behind (n : Nat) (c : Int) : Int :=
  c - c / n

/-- As far as cycles are held exactly, the turns and the moves are those of whole numbers. -/
theorem inCycle_eq {ps : List (Pattern ρ α)} (hps : ps ≠ []) {c : Int} (hc : c.natAbs ≤ 2 ^ 53) :
    inCycle ps c
      = (ps[(c % ps.length).toNat]?.getD silence).later (behind ps.length c : Int) := by
  have hturn := turn_eq_emod (List.length_pos_of_ne_nil hps) hc
  have hfloor : ((c : Rat) / (ps.length : Rat)).floor = c / ps.length :=
    Rat.floor_intCast_div_natCast _ _
  rw [← hturn, Int.toNat_natCast]
  simp only [inCycle, hfloor, behind]
  rw [Int.cast_sub]

/-- The cycle that a step is asked about is no further out than the one it plays in. -/
theorem natAbs_sub_behind_le (e : Int) {k m : Nat} (hk : 0 < k) (hm : 0 < m) :
    (e - behind m (e / k) * k).natAbs ≤ e.natAbs := by
  generalize hc : e / (k : Int) = c
  have hsplit : e = c * k + e % k := by
    rw [← hc, Int.mul_comm]
    exact (Int.mul_ediv_add_emod e k).symm
  have hrest := Int.emod_nonneg e (by omega : (k : Int) ≠ 0)
  have hrestlt := Int.emod_lt_of_pos e (by omega : (0 : Int) < k)
  have hinner : e - behind m c * k = c / m * k + e % k := by
    rw [behind, sub_mul]
    omega
  have hsize := Int.natAbs_ediv_le_natAbs c m
  rcases le_or_gt 0 c with hpos | hneg
  · have hq : 0 ≤ c / (m : Int) := Int.ediv_nonneg hpos (by omega)
    have hle : c / (m : Int) * k ≤ c * k := Int.mul_le_mul_of_nonneg_right (by omega) (by omega)
    have hqk : 0 ≤ c / (m : Int) * k := Int.mul_nonneg hq (by omega)
    omega
  · have hq : c / (m : Int) < 0 := Int.ediv_neg_of_neg_of_pos hneg (by omega)
    have hle : c * k ≤ c / (m : Int) * k := Int.mul_le_mul_of_nonneg_right (by omega) (by omega)
    have hqk : c / (m : Int) * k ≤ -1 * k := Int.mul_le_mul_of_nonneg_right (by omega) (by omega)
    omega

section

variable {blocks : List (List (Pattern ρ α))} {k : Nat}
  (hne : blocks ≠ []) (hk : 0 < k) (hlength : ∀ block ∈ blocks, block.length = k)

include hne hk hlength

/-- The step that plays in a cycle of its group is the one that plays without groups, and it
is asked about the same cycle of its own. -/
theorem inCycle_flatten {e : Int} (he : e.natAbs ≤ 2 ^ 53) {block : List (Pattern ρ α)}
    (hblock : blocks[(e / k % blocks.length).toNat]? = some block) :
    (inCycle block (e - behind blocks.length (e / k) * k)).later
        ((behind blocks.length (e / k) * k : Int) : Rat)
      = inCycle blocks.flatten e := by
  have hsize : block.length = k := hlength block (List.mem_of_getElem? hblock)
  have hempty : block ≠ [] := List.ne_nil_of_length_pos (hsize ▸ hk)
  have hflat := length_flatten_blocks hlength
  have hm : 0 < blocks.length := List.length_pos_of_ne_nil hne
  have hflatne : blocks.flatten ≠ [] :=
    List.ne_nil_of_length_pos (hflat ▸ Nat.mul_pos hm hk)
  generalize hd : behind blocks.length (e / k) = d
  have hlocal : (e - d * k).natAbs ≤ 2 ^ 53 := hd ▸ (natAbs_sub_behind_le e hk hm).trans he
  have hkz : (k : Int) ≠ 0 := by omega
  have hdiv : (e - d * k) / (k : Int) = e / k / blocks.length := by
    rw [sub_eq_add_neg, ← neg_mul, Int.add_mul_ediv_right _ _ hkz, ← hd, behind]
    ring
  have hmod : (e - d * k) % (k : Int) = e % k := by
    rw [sub_eq_add_neg, ← neg_mul, Int.add_mul_emod_self_right]
  have hwhole : e / ((blocks.length * k : Nat) : Int) = e / k / blocks.length := by
    push_cast
    rw [mul_comm, Int.ediv_ediv_of_nonneg (by omega)]
  have hindex : (e % ((blocks.length * k : Nat) : Int)).toNat
      = (e / k % blocks.length).toNat * k + (e % k).toNat := by
    have hsplit : e % ((blocks.length * k : Nat) : Int) = e / k % blocks.length * k + e % k := by
      rw [Int.emod_def, hwhole, Int.emod_def, Int.emod_def e]
      push_cast
      ring
    have hturn := Int.emod_nonneg (e / k) (by omega : (blocks.length : Int) ≠ 0)
    have hrest := Int.emod_nonneg e hkz
    rw [hsplit, Int.toNat_add (Int.mul_nonneg hturn (by omega)) hrest,
      Int.toNat_mul hturn (by omega), Int.toNat_natCast]
  have hi : (e % (k : Int)).toNat < k := by
    have := Int.emod_lt_of_pos e (by omega : (0 : Int) < k)
    omega
  have hstep : blocks.flatten[(e % (blocks.flatten.length : Int)).toNat]?
      = block[((e - d * k) % (block.length : Int)).toNat]? := by
    rw [hflat, hindex, getElem?_flatten_blocks hlength hi, hblock, hsize, hmod]
    rfl
  rw [inCycle_eq hempty hlocal, inCycle_eq hflatne he, hstep, later_later]
  congr 1
  rw [← Int.cast_add, behind, behind, hsize, hflat, hdiv, hwhole]
  congr 1
  ring

/-- In a cycle of the groups, the group that has its turn plays what the steps play. -/
theorem query_group {c : Int} {piece : Span} (hcycle : ∀ t ∈ piece, t.floor = c)
    (hexact : ∀ t ∈ piece, (t * k).floor.natAbs ≤ 2 ^ 53) {block : List (Pattern ρ α)}
    (hblock : blocks[(c % blocks.length).toNat]? = some block) :
    (((slowcat block).fast k).later (behind blocks.length c : Int)).query piece
      = ((slowcat blocks.flatten).fast k).query piece := by
  have hpos : (0 : Rat) < k := by exact_mod_cast hk
  generalize hd : behind blocks.length c = d
  rw [later_eq_moved, fast_eq_moved hpos, fast_eq_moved hpos, query_moved, query_moved, query_moved]
  have hmoved : (piece.mapTime (OrderIso.addRight (d : Rat)).symm).mapTime
        (OrderIso.divRight₀ (k : Rat) hpos).symm
      = (piece.mapTime (· * (k : Rat))).mapTime (· - ((d * k : Int) : Rat)) := by
    have hboth : ∀ t : Rat, (t + -(d : Rat)) * k = t * k - ((d * k : Int) : Rat) := by
      intro t
      push_cast
      ring
    exact congrArg₂ Span.mk (hboth _) (hboth _)
  rw [hmoved]
  show (((Span.cycles _).flatMap _).map _).map _
    = ((piece.mapTime (· * (k : Rat))).cycles.flatMap _).map _
  rw [Span.cycles_shifted, List.flatMap_map, List.map_flatMap, List.map_flatMap, List.map_flatMap]
  refine List.flatMap_congr fun inner hinner => ?_
  -- The piece begins in the cycle `e`, which is one of those in the place of `c`.
  obtain ⟨hle, hmem⟩ := Span.mem_of_mem_cycles (Span.le_of_mem_cycles hinner) hinner
  have hstart : inner.start / k ∈ piece :=
    (Span.mem_mapTime (OrderIso.divRight₀ (k : Rat) hpos).symm).mp
      ((hmem _).mp (Span.start_mem hle)).1
  have hback : inner.start / k * k = inner.start := div_mul_cancel₀ _ hpos.ne'
  have he := hexact _ hstart
  have hdiv := Span.floor_mul_ediv (inner.start / k) hk
  rw [hback] at he hdiv
  rw [hcycle _ hstart] at hdiv
  generalize hfloor : inner.start.floor = e at he hdiv ⊢
  have hinside : (inner.mapTime (· - ((d * k : Int) : Rat))).start.floor = e - d * k := by
    rw [← hfloor]
    exact Span.floor_sub_intCast _ _
  have hhap : Span.mapTime (OrderIso.addRight (d : Rat))
        ∘ Span.mapTime (OrderIso.divRight₀ (k : Rat) hpos)
      = Span.mapTime (OrderIso.divRight₀ (k : Rat) hpos)
        ∘ Span.mapTime (· + ((d * k : Int) : Rat)) := by
    have hboth : ∀ t : Rat, t / k + (d : Rat) = (t + ((d * k : Int) : Rat)) / k := by
      intro t
      push_cast
      field_simp
    exact funext fun t => congrArg₂ Span.mk (hboth _) (hboth _)
  rw [← inCycle_flatten hne hk hlength he (hdiv ▸ hblock), hdiv, hd, hinside, query_later,
    List.map_map, List.map_map]
  refine List.map_congr_left fun hap _ => ?_
  rw [Function.comp_apply, Function.comp_apply, Hap.mapSpan_mapSpan, Hap.mapSpan_mapSpan, hhap]

end

/-- What is asked of a sequence at a speed is asked cycle by cycle, before the speed as after. -/
theorem query_fast_slowcat (ps : List (Pattern ρ α)) {k : Nat} (hk : 0 < k) (s : Span) :
    ((slowcat ps).fast k).query s = s.cycles.flatMap ((slowcat ps).fast (k : Rat)).query := by
  have hpos : (0 : Rat) < k := by exact_mod_cast hk
  have hquery : ∀ s : Span, ((slowcat ps).fast k).query s
      = ((s.mapTime (· * (k : Rat))).cycles.flatMap (slowcat ps).query).map
          (Hap.mapSpan (Span.mapTime (OrderIso.divRight₀ (k : Rat) hpos))) := by
    intro s
    rw [fast_eq_moved hpos, query_moved, query_slowcat_flatMap]
    rfl
  rw [hquery, Span.cycles_scaled s hk, List.flatMap_assoc, List.map_flatMap]
  exact List.flatMap_congr fun piece _ => (hquery piece).symm

/-- A turn of a group is a turn of each of its steps. -/
theorem query_slowcat_flatten {blocks : List (List (Pattern ρ α))} {k : Nat} (hne : blocks ≠ [])
    (hk : 0 < k) (hlength : ∀ block ∈ blocks, block.length = k) {s : Span}
    (hs : ∀ t ∈ s, (t * k).floor.natAbs ≤ 2 ^ 53) :
    (slowcat (blocks.map fun block => (slowcat block).fast (k : Rat))).query s
      = ((slowcat blocks.flatten).fast k).query s := by
  rw [query_fast_slowcat _ hk, query_slowcat_flatMap]
  refine List.flatMap_congr fun piece hpiece => ?_
  obtain ⟨hle, hmem⟩ := Span.mem_of_mem_cycles (Span.le_of_mem_cycles hpiece) hpiece
  have hexact : ∀ t ∈ piece, (t * k).floor.natAbs ≤ 2 ^ 53 := fun t ht => hs t ((hmem t).mp ht).1
  have hcycle : ∀ t ∈ piece, t.floor = piece.start.floor := fun t ht => ((hmem t).mp ht).2
  rw [query_slowcat_within (Span.within_of_mem_cycles hpiece)]
  generalize piece.start.floor = c at hcycle ⊢
  have hstart : (piece.start * k).floor / (k : Int) = c :=
    (Span.floor_mul_ediv piece.start hk).trans (hcycle _ (Span.start_mem hle))
  have hc : c.natAbs ≤ 2 ^ 53 :=
    hstart ▸ (Int.natAbs_ediv_le_natAbs _ _).trans (hexact _ (Span.start_mem hle))
  have hturn : (c % (blocks.length : Int)).toNat < blocks.length := by
    have hpos : (0 : Int) < blocks.length := by exact_mod_cast List.length_pos_of_ne_nil hne
    have := Int.emod_lt_of_pos c hpos
    omega
  have hblock := List.getElem?_eq_getElem hturn
  rw [inCycle_eq (mt List.map_eq_nil_iff.mp hne) hc, List.length_map, List.getElem?_map, hblock]
  exact query_group hne hk hlength hcycle hexact hblock

/-! ### Sequences -/

/-- Only a single pattern is played as it is. -/
theorem fastcat_eq {ps : List (Pattern ρ α)} (hps : ps.length ≠ 1) :
    fastcat ps = (slowcat ps).fast (ps.length : Rat) := by
  unfold fastcat
  split
  · exact absurd rfl hps
  · rfl

/-- Groups of one are the steps themselves. -/
theorem map_fastcat_of_length_one {blocks : List (List (Pattern ρ α))}
    (hlength : ∀ block ∈ blocks, block.length = 1) : blocks.map fastcat = blocks.flatten := by
  induction blocks with
  | nil => rfl
  | cons block rest ih =>
      obtain ⟨p, rfl⟩ := List.length_eq_one_iff.mp (hlength block List.mem_cons_self)
      rw [List.map_cons, List.flatten_cons, ih fun b hb => hlength b (List.mem_cons_of_mem _ hb)]
      rfl

theorem natAbs_floor_le {x : Rat} {n : Nat} (h : |x| + 1 ≤ n) : x.floor.natAbs ≤ n := by
  obtain ⟨hlow, hhigh⟩ := Span.floor_eq_iff.mp (rfl : x.floor = x.floor)
  have habs : ((x.floor.natAbs : Int) : Rat) ≤ n := by
    rw [Int.natCast_natAbs, Int.cast_abs]
    refine le_trans (abs_le.mpr ⟨?_, ?_⟩) h
    · linarith [neg_abs_le x]
    · linarith [le_abs_self x]
  exact_mod_cast habs

/-- Where the ends of a query are held exactly with `n` cycles for one, all its moments are. -/
theorem natAbs_floor_mul_le {s : Span} {n : Nat} (hn : 0 < n)
    (hstart : (|s.start| + 1) * n ≤ 2 ^ 53) (hstop : (|s.stop| + 1) * n ≤ 2 ^ 53) :
    ∀ t ∈ s, (t * n).floor.natAbs ≤ 2 ^ 53 := by
  intro t ht
  have hone : (1 : Rat) ≤ n := by exact_mod_cast hn
  have hpos : (0 : Rat) < n := by exact_mod_cast hn
  have hfar : |t| ≤ max |s.start| |s.stop| :=
    abs_le_max_abs_abs (Span.start_le_of_mem ht) (Span.le_stop_of_mem ht)
  have hmax : (max |s.start| |s.stop| + 1) * n ≤ 2 ^ 53 := by
    rcases max_choice |s.start| |s.stop| with h | h
    · rwa [h]
    · rwa [h]
  refine natAbs_floor_le ?_
  push_cast
  calc |t * n| + 1
      = |t| * n + 1 := by rw [abs_mul, abs_of_pos hpos]
    _ ≤ max |s.start| |s.stop| * n + n := by gcongr
    _ = (max |s.start| |s.stop| + 1) * n := by ring
    _ ≤ 2 ^ 53 := hmax

/-- **Grouping the steps of a sequence changes nothing**, if all groups are of one size. -/
theorem fastcat_regrouped {blocks : List (List (Pattern ρ α))} {k : Nat} (hne : blocks ≠ [])
    (hk : 0 < k) (hlength : ∀ block ∈ blocks, block.length = k) {s : Span}
    (hstart : (|s.start| + 1) * (blocks.length * k) ≤ 2 ^ 53)
    (hstop : (|s.stop| + 1) * (blocks.length * k) ≤ 2 ^ 53) :
    (fastcat (blocks.map fastcat)).query s = (fastcat blocks.flatten).query s := by
  have hm : 0 < blocks.length := List.length_pos_of_ne_nil hne
  by_cases hone : blocks.length = 1
  · obtain ⟨block, rfl⟩ := List.length_eq_one_iff.mp hone
    rw [List.flatten_singleton]
    rfl
  by_cases hsingle : k = 1
  · subst hsingle
    rw [map_fastcat_of_length_one hlength]
  have hflat := length_flatten_blocks hlength
  have hflatOne : blocks.flatten.length ≠ 1 := by
    rw [hflat]
    exact fun h => hone (Nat.eq_one_of_mul_eq_one_right h)
  have hgroups : blocks.map fastcat = blocks.map fun block => (slowcat block).fast (k : Rat) := by
    refine List.map_congr_left fun block hblock => ?_
    rw [fastcat_eq (hlength block hblock ▸ hsingle), hlength block hblock]
  have hmpos : (0 : Rat) < blocks.length := by exact_mod_cast hm
  have hkpos : (0 : Rat) < k := by exact_mod_cast hk
  have hspeed : ((blocks.length * k : Nat) : Rat) = (k : Rat) * blocks.length := by
    push_cast
    exact mul_comm _ _
  rw [fastcat_eq (by rwa [List.length_map]), fastcat_eq hflatOne, hflat, hspeed,
    ← fast_fast hkpos hmpos, List.length_map, hgroups, fast_eq_moved hmpos, fast_eq_moved hmpos,
    query_moved, query_moved, query_slowcat_flatten hne hk hlength]
  intro t ht
  -- The moment is one of the query, as many times further out as there are groups.
  have hinside : t / blocks.length ∈ s :=
    (Span.mem_mapTime (OrderIso.divRight₀ (blocks.length : Rat) hmpos).symm).mp ht
  have hexact := natAbs_floor_mul_le (Nat.mul_pos hm hk) (by exact_mod_cast hstart)
    (by exact_mod_cast hstop) _ hinside
  have hback : t / blocks.length * ((blocks.length * k : Nat) : Rat) = t * k := by
    push_cast
    field_simp
  rwa [hback] at hexact

/-- Two groups of two, asked about a stretch that begins in the first group before zero. -/
theorem fastcat_regrouped_twos :
    let name (text : String) : Pattern Unit String := Pattern.pure text none
    let blocks := [[name "a", name "b"], [name "c", name "d"]]
    let s : Span := ⟨-2 / 3, 5 / 4⟩
    (blocks ≠ [] ∧ ∀ block ∈ blocks, block.length = 2) ∧
      (fastcat [fastcat [name "a", name "b"], fastcat [name "c", name "d"]]).query s
        = (fastcat [name "a", name "b", name "c", name "d"]).query s ∧
      ((fastcat [name "a", name "b", name "c", name "d"]).query s).map (·.value)
        = ["b", "c", "d", "a", "b", "c", "d", "a"] := by
  intro name blocks s
  have hne : blocks ≠ [] := List.cons_ne_nil _ _
  have hlength : ∀ block ∈ blocks, block.length = 2 := by
    intro block hblock
    simp only [blocks, List.mem_cons, List.not_mem_nil, or_false] at hblock
    rcases hblock with rfl | rfl <;> rfl
  refine ⟨⟨hne, hlength⟩, fastcat_regrouped hne (by decide) hlength ?_ ?_, ?_⟩
  · decide +kernel
  · decide +kernel
  · decide +kernel

end Pattern

end CyclePatterns
