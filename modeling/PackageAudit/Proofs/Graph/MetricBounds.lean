import Mathlib.Algebra.BigOperators.Fin
import Mathlib.Algebra.Order.Field.Rat
import Mathlib.Algebra.Order.Group.Unbundled.Abs
import Mathlib.Tactic.Linarith
import PackageAudit.Proofs.Graph.ByName
/-!
How large metrics can be.

Metrics are shares of counts. A package counts no more abstract classes than classes, and its efferents are a
part of its couplings, so shares lie between zero and one and give the part back for the whole; where there is
nothing to share, nothing is divided and the share is zero. Each dependency is written down with both of its packages and with each of them once, so over all
packages there are as many efferents as afferents as dependencies.
-/

namespace PackageAudit

/-- Rational arithmetic, with anything at all for a division by zero. -/
structure Arithmetic.IsExact (arithmetic : Arithmetic ℚ) : Prop where
  ofNat : ∀ n, arithmetic.ofNat n = n
  add : ∀ x y, arithmetic.add x y = x + y
  sub : ∀ x y, arithmetic.sub x y = x - y
  mul : ∀ x y, arithmetic.mul x y = x * y
  div : ∀ x y, y ≠ 0 → arithmetic.div x y = x / y
  abs : ∀ x, arithmetic.abs x = |x|

/-- The operations of the rationals. -/
def Arithmetic.rational : Arithmetic ℚ where
  ofNat n := n
  add := (· + ·)
  sub := (· - ·)
  mul := (· * ·)
  div := (· / ·)
  abs x := |x|

theorem Arithmetic.isExact_rational : Arithmetic.rational.IsExact where
  ofNat _ := rfl
  add _ _ := rfl
  sub _ _ := rfl
  mul _ _ := rfl
  div _ _ _ := rfl
  abs _ := rfl

namespace Metrics

/-! ### Shares -/

section Shares

variable {arithmetic : Arithmetic ℚ} (exact : arithmetic.IsExact) {part whole : Nat}
include exact

theorem share_mul (some : whole ≠ 0) : share arithmetic part whole * whole = part := by
  have positive : (whole : ℚ) ≠ 0 := Nat.cast_ne_zero.mpr some
  rw [share, if_neg some, exact.ofNat, exact.ofNat, exact.div _ _ positive, div_mul_cancel₀ _ positive]

theorem share_zero : share arithmetic part 0 = 0 := by
  rw [share, if_pos rfl, exact.ofNat, Nat.cast_zero]

/-- Nothing is part of nothing, so the law of shares needs no whole that is not empty. -/
theorem share_mul_of_le (contained : part ≤ whole) : share arithmetic part whole * whole = part := by
  by_cases none : whole = 0
  · have empty : part = 0 := Nat.le_zero.mp (none ▸ contained)
    rw [none, empty, Nat.cast_zero, mul_zero]
  · exact share_mul exact none

theorem share_nonneg : 0 ≤ share arithmetic part whole := by
  by_cases none : whole = 0
  · rw [none, share_zero exact]
  · refine nonneg_of_mul_nonneg_left ?_ (Nat.cast_pos.mpr (Nat.pos_of_ne_zero none))
    rw [share_mul exact none]
    exact Nat.cast_nonneg part

theorem share_le_one (contained : part ≤ whole) : share arithmetic part whole ≤ 1 := by
  by_cases none : whole = 0
  · rw [none, share_zero exact]
    exact zero_le_one
  · refine le_of_mul_le_mul_right ?_ (Nat.cast_pos.mpr (Nat.pos_of_ne_zero none) : (0 : ℚ) < whole)
    rw [share_mul exact none, one_mul]
    exact Nat.cast_le.mpr contained

end Shares

/-! ### One package -/

/-- The counts make sense, the shares are those of the counts, and all that is computed from them lies where
it should. -/
structure InBounds (metrics : Metrics) (arithmetic : Arithmetic ℚ) : Prop where
  abstractClasses_le : metrics.abstractClasses ≤ metrics.classes
  concreteClasses_add : metrics.concreteClasses + metrics.abstractClasses = metrics.classes
  abstractness_mul : metrics.abstractnessIn arithmetic * metrics.classes = metrics.abstractClasses
  abstractness_zero : metrics.classes = 0 → metrics.abstractnessIn arithmetic = 0
  instability_mul : metrics.instabilityIn arithmetic * metrics.coupling = metrics.efferentCoupling
  instability_zero : metrics.coupling = 0 → metrics.instabilityIn arithmetic = 0
  abstractness : metrics.abstractnessIn arithmetic ∈ Set.Icc 0 1
  instability : metrics.instabilityIn arithmetic ∈ Set.Icc 0 1
  distance : metrics.distanceIn arithmetic ∈ Set.Icc 0 (metrics.volatility : ℚ)
  distance_eq_zero_iff : metrics.distanceIn arithmetic = 0 ↔ metrics.volatility = 0 ∨
    metrics.abstractnessIn arithmetic + metrics.instabilityIn arithmetic = 1

theorem distanceIn_eq {arithmetic : Arithmetic ℚ} (exact : arithmetic.IsExact) (metrics : Metrics) :
    metrics.distanceIn arithmetic =
      |metrics.abstractnessIn arithmetic + metrics.instabilityIn arithmetic - 1| * metrics.volatility := by
  simp only [distanceIn, exact.ofNat, exact.add, exact.sub, exact.mul, exact.abs, Nat.cast_one]

theorem inBounds {arithmetic : Arithmetic ℚ} (exact : arithmetic.IsExact) {metrics : Metrics}
    (contained : metrics.abstractClasses ≤ metrics.classes) : metrics.InBounds arithmetic := by
  have outgoing : metrics.efferentCoupling ≤ metrics.coupling := Nat.le_add_right _ _
  have abstractness : metrics.abstractnessIn arithmetic ∈ Set.Icc 0 1 :=
    ⟨share_nonneg exact, share_le_one exact contained⟩
  have instability : metrics.instabilityIn arithmetic ∈ Set.Icc 0 1 :=
    ⟨share_nonneg exact, share_le_one exact outgoing⟩
  have weight : (0 : ℚ) ≤ metrics.volatility := Nat.cast_nonneg _
  -- The balance of two shares is off by one at the most.
  have off : |metrics.abstractnessIn arithmetic + metrics.instabilityIn arithmetic - 1| ≤ 1 := by
    rw [abs_le]
    constructor <;> linarith [abstractness.1, abstractness.2, instability.1, instability.2]
  constructor
  case abstractClasses_le => exact contained
  case concreteClasses_add => exact Nat.sub_add_cancel contained
  case abstractness_mul => exact share_mul_of_le exact contained
  case abstractness_zero => intro none; rw [abstractnessIn, none, share_zero exact]
  case instability_mul => exact share_mul_of_le exact outgoing
  case instability_zero => intro none; rw [instabilityIn, none, share_zero exact]
  case abstractness => exact abstractness
  case instability => exact instability
  case distance =>
    rw [distanceIn_eq exact]
    exact ⟨mul_nonneg (abs_nonneg _) weight, mul_le_of_le_one_left weight off⟩
  case distance_eq_zero_iff =>
    rw [distanceIn_eq exact, mul_eq_zero, abs_eq_zero, sub_eq_zero, Nat.cast_eq_zero, or_comm]

end Metrics

/-! ### All packages -/

namespace PackageGraph

/-- The dependencies between the packages of a graph. -/
def dependencies (graph : PackageGraph) : Finset (Nat × Nat) :=
  {pair ∈ Finset.range graph.size ×ˢ Finset.range graph.size | pair.2 ∈ graph.efferents pair.1}

variable {graph : PackageGraph}

theorem length_eq_sum {items : List Nat} {bound : Nat} (nodup : items.Nodup)
    (inRange : ∀ item ∈ items, item < bound) :
    items.length = ∑ other ∈ Finset.range bound, if other ∈ items then 1 else 0 := by
  rw [← Finset.card_filter, ← List.toFinset_card_of_nodup nodup]
  congr 1
  ext item
  simpa using inRange item

theorem card_dependencies (graph : PackageGraph) :
    graph.dependencies.card = ∑ pair ∈ Finset.range graph.size ×ˢ Finset.range graph.size,
      if pair.2 ∈ graph.efferents pair.1 then 1 else 0 :=
  Finset.card_filter _ _

/-- Dependencies counted by their sources. -/
theorem WellFormed.sum_efferents (wellFormed : graph.WellFormed) :
    ∑ index ∈ Finset.range graph.size, (graph.efferents index).length = graph.dependencies.card := by
  rw [card_dependencies, Finset.sum_product]
  refine Finset.sum_congr rfl fun source _ => ?_
  exact length_eq_sum (wellFormed.efferents_nodup source) (wellFormed.efferents_lt source)

/-- Dependencies counted by their targets, where the same ones are held. -/
theorem WellFormed.sum_afferents (wellFormed : graph.WellFormed) :
    ∑ index ∈ Finset.range graph.size, (graph.afferents index).length = graph.dependencies.card := by
  rw [card_dependencies, Finset.sum_product_right]
  refine Finset.sum_congr rfl fun target _ => ?_
  simp only [wellFormed.mirrored]
  exact length_eq_sum (wellFormed.afferents_nodup target) (wellFormed.afferents_lt target)

theorem mem_dependencies (wellFormed : graph.WellFormed) (source target : Nat) :
    (source, target) ∈ graph.dependencies ↔ target ∈ graph.efferents source := by
  simp only [dependencies, Finset.mem_filter, Finset.mem_product, Finset.mem_range]
  refine and_iff_right_of_imp fun member => ⟨?_, wellFormed.efferents_lt source target member⟩
  exact wellFormed.afferents_lt target source ((wellFormed.mirrored source target).mp member)

/-- The names of the two packages of a dependency. -/
def namesOf (graph : PackageGraph) (pair : Nat × Nat) : String × String :=
  (graph.nameOf pair.1, graph.nameOf pair.2)

theorem mem_image_namesOf (wellFormed : graph.WellFormed) (source target : String) :
    (source, target) ∈ graph.dependencies.image graph.namesOf ↔ graph.DependsByName source target := by
  rw [Finset.mem_image]
  constructor
  · rintro ⟨⟨sourceIndex, targetIndex⟩, member, same⟩
    obtain ⟨rfl, rfl⟩ := Prod.mk.inj same
    have depends := (mem_dependencies wellFormed _ _).mp member
    have targetInRange := wellFormed.efferents_lt _ _ depends
    have sourceInRange := wellFormed.afferents_lt _ _ ((wellFormed.mirrored _ _).mp depends)
    exact (wellFormed.dependsByName_nameOf_iff sourceInRange targetInRange).mpr depends
  · rintro ⟨sourceIndex, targetIndex, sourceFound, targetFound, depends⟩
    refine ⟨(sourceIndex, targetIndex), (mem_dependencies wellFormed _ _).mpr depends, ?_⟩
    rw [namesOf, nameOf_of_getElem? ((wellFormed.indexOf?_iff _ _).mp sourceFound),
      nameOf_of_getElem? ((wellFormed.indexOf?_iff _ _).mp targetFound)]

/-- Between names, the dependencies are the requests that are allowed, each once. -/
theorem Records.card_dependencies {requests : List (String × String)} (records : graph.Records requests) :
    graph.dependencies.card = (requests.filter (isAllowed graph.allowSelf)).toFinset.card := by
  have wellFormed := records.wellFormed
  have inRange : ∀ pair ∈ graph.dependencies, pair.1 < graph.size ∧ pair.2 < graph.size := by
    simp +contextual [dependencies]
  -- Packages differ by name, so that counting pairs of names is counting dependencies.
  have apart : Set.InjOn graph.namesOf graph.dependencies := by
    intro one member other present same
    obtain ⟨sources, targets⟩ := Prod.mk.inj same
    obtain ⟨oneSource, oneTarget⟩ := inRange one member
    obtain ⟨otherSource, otherTarget⟩ := inRange other present
    exact Prod.ext ((wellFormed.nameOf_inj oneSource otherSource).mp sources)
      ((wellFormed.nameOf_inj oneTarget otherTarget).mp targets)
  rw [← Finset.card_image_of_injOn apart]
  congr 1
  ext ⟨source, target⟩
  rw [mem_image_namesOf wellFormed, List.mem_toFinset, List.mem_filter, ← mem_requestedTargets]
  exact records.depends_iff source target

end PackageGraph

/-! ### Runs -/

namespace GraphOperation

/-- Whatever operations built a graph, the metrics of its packages are in their bounds, and it has as many
efferents as afferents in all: one of each for every dependency that was requested and is allowed, however
often it was requested. -/
theorem run_bounds_metrics {allowSelf : Bool} {operations : List GraphOperation} {graph : PackageGraph}
    {requests : List (String × String)} (run : Run allowSelf operations graph requests)
    {arithmetic : Arithmetic ℚ} (exact : arithmetic.IsExact) :
    (∀ index package, graph.packages[index]? = some package →
      (graph.metrics index package).InBounds arithmetic) ∧
    ∑ index : Fin graph.packages.length, (graph.metrics index graph.packages[index]).efferentCoupling =
      graph.dependencies.card ∧
    ∑ index : Fin graph.packages.length, (graph.metrics index graph.packages[index]).afferentCoupling =
      graph.dependencies.card ∧
    graph.dependencies.card = (requests.filter (isAllowed allowSelf)).toFinset.card := by
  obtain ⟨records, rfl⟩ := run.records
  have wellFormed := records.wellFormed
  refine ⟨fun index package found => ?_, ?_, ?_, records.card_dependencies⟩
  · have counted := wellFormed.abstract_counted package (List.mem_of_getElem? found)
    have contained : package.abstractClasses ≤ package.classes.length :=
      counted ▸ List.countP_le_length
    exact Metrics.inBounds exact contained
  · rw [← wellFormed.sum_efferents, Finset.sum_range]
    rfl
  · rw [← wellFormed.sum_afferents, Finset.sum_range]
    rfl

/-- An interface that depends upon two packages and a class that depends upon one of them again, in a package
whose volatility is set, and a self dependency that is not allowed. -/
theorem run_bounds_metrics_folded :
    ∃ graph requests, Run false [.fold ⟨"a.A", "a", none, true, ["b", "c"]⟩,
        .fold ⟨"a.B", "a", none, false, ["b"]⟩, .setVolatility "a" 3, .link 0 0] graph requests ∧
      graph.packages.map (·.name) = ["a", "b", "c"] ∧
      (∀ index package, graph.packages[index]? = some package →
        (graph.metrics index package).InBounds .rational) ∧
      ∑ index : Fin graph.packages.length,
        (graph.metrics index graph.packages[index]).efferentCoupling = 2 := by
  have run := Run.step (.link 0 0) (Run.step (.setVolatility "a" 3)
    (Run.step (.fold ⟨"a.B", "a", none, false, ["b"]⟩)
      (Run.step (.fold ⟨"a.A", "a", none, true, ["b", "c"]⟩) (@Run.empty false) trivial) trivial)
    trivial) ⟨by decide, by decide⟩
  obtain ⟨bounds, efferents, -, requested⟩ := run_bounds_metrics run Arithmetic.isExact_rational
  exact ⟨_, _, run, by decide, bounds, (efferents.trans requested).trans (by decide)⟩

end GraphOperation

end PackageAudit
