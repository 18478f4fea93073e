import Mathlib.Data.List.Induction
import Mathlib.Data.List.Nodup
import PackageAudit.Proofs.Json.ReadBack
import PackageAudit.Proofs.Prohibitions.Enforcement
/-!
Rules that read back as they were written.

Reading does not restore rules but registers them one after the other, and registering merges rules of
one owner and leaves out patterns that are repeated or name the owner. Nothing is merged or left out
of rules that were themselves registered: each owner has one rule, and no rule holds a pattern twice or
its own owner. Every way to build rules keeps them so, reading included, and such rules are registered
again in the order and form in which they stand.
-/

namespace PackageAudit

theorem Json.list?_map {α : Type} {item : Json → Option α} {write : α → Json} {values : List α}
    (each : ∀ value ∈ values, item (write value) = some value) :
    Json.list? item (.array (values.map write)) = some values := by
  rw [Json.list?]
  induction values with
  | nil => rfl
  | cons value rest ih =>
    obtain ⟨first, others⟩ := List.forall_mem_cons.mp each
    rw [List.map_cons, List.mapM_cons, first, ih others]
    rfl

theorem Json.texts?_texts (values : List String) : Json.texts? (.texts values) = some values :=
  Json.list?_map fun _ _ => rfl

theorem Json.textual_texts (values : List String) : (Json.texts values).Textual := by
  apply Json.Textual.array
  intro item member
  obtain ⟨value, -, rfl⟩ := List.mem_map.mp member
  exact .string (some value)

namespace PackageRule

theorem ofJson?_toJson (rule : PackageRule) : ofJson? rule.toJson = some rule := by
  have fields : rule.toJson.fields? ["package", "forbidden"] =
      some ⟨false, [some (.text rule.package), some (.texts rule.forbidden)]⟩ := by
    simp [toJson, Json.record, Json.fields?, Json.memberNamed]
  simp only [ofJson?, fields, Option.bind_eq_bind, Option.bind_some, Json.Fields.required,
    Json.Fields.orDefault, Json.Fields.get?, Json.texts?_texts, List.getElem?_cons_zero,
    List.getElem?_cons_succ, Option.join_some, Json.text?, Json.text]
  rfl

theorem textual_toJson (rule : PackageRule) : rule.toJson.Textual := by
  apply Json.Textual.object
  intro member present
  rcases List.mem_pair.mp present with rfl | rfl
  · exact .string (some rule.package)
  · exact Json.textual_texts rule.forbidden

/-- No pattern is repeated or names the owner. -/
structure Orderly (rule : PackageRule) : Prop where
  nodup : rule.forbidden.Nodup
  foreign : rule.package ∉ rule.forbidden

theorem Orderly.forbid {rule : PackageRule} (orderly : rule.Orderly) (pattern : String) :
    (rule.forbid pattern).Orderly := by
  unfold PackageRule.forbid
  split
  next known => exact orderly
  next fresh =>
    obtain ⟨foreign, new⟩ := not_or.mp fresh
    refine ⟨?_, ?_⟩
    · rw [← List.concat_eq_append]
      exact List.Nodup.concat new orderly.nodup
    · rw [List.mem_append, List.mem_singleton]
      exact not_or.mpr ⟨orderly.foreign, Ne.symm foreign⟩

end PackageRule

namespace Prohibitions

/-! ### What every way of building rules keeps -/

/-- Each owner has one rule, and each rule is orderly. -/
structure Orderly (prohibitions : Prohibitions) : Prop where
  owners_nodup : (prohibitions.rules.map (·.package)).Nodup
  rules : ∀ rule ∈ prohibitions.rules, rule.Orderly

theorem orderly_empty : empty.Orderly := ⟨List.nodup_nil, nofun⟩

variable {prohibitions : Prohibitions}

theorem declare_of_fresh {owner : String}
    (fresh : ∀ rule ∈ prohibitions.rules, rule.package ≠ owner) :
    prohibitions.declare owner = ⟨prohibitions.rules ++ [{ package := owner }]⟩ := by
  rw [declare, if_neg]
  simpa using fresh

theorem declare_of_known {owner : String}
    (known : ∃ rule ∈ prohibitions.rules, rule.package = owner) :
    prohibitions.declare owner = prohibitions := by
  rw [declare, if_pos]
  simpa using known

theorem Orderly.declare (orderly : prohibitions.Orderly) (owner : String) :
    (prohibitions.declare owner).Orderly := by
  by_cases known : ∃ rule ∈ prohibitions.rules, rule.package = owner
  · rwa [declare_of_known known]
  · have fresh : ∀ rule ∈ prohibitions.rules, rule.package ≠ owner := by simpa using known
    rw [declare_of_fresh fresh]
    refine ⟨?_, ?_⟩
    · rw [List.map_append, List.map_singleton, ← List.concat_eq_append]
      apply List.Nodup.concat _ orderly.owners_nodup
      simpa using fresh
    · rw [List.forall_mem_append]
      exact ⟨orderly.rules, List.forall_mem_singleton.mpr ⟨List.nodup_nil, List.not_mem_nil⟩⟩

theorem Orderly.forbid (orderly : prohibitions.Orderly) (owner pattern : String) :
    (prohibitions.forbid owner pattern).Orderly := by
  have declared := orderly.declare owner
  refine ⟨?_, ?_⟩
  · have owners : (prohibitions.forbid owner pattern).rules.map (·.package) =
        (prohibitions.declare owner).rules.map (·.package) := by
      rw [Prohibitions.forbid, List.map_map]
      apply List.map_congr_left
      intro rule _
      rw [Function.comp_apply, apply_ite PackageRule.package, PackageRule.package_forbid, ite_self]
    rw [owners]
    exact declared.owners_nodup
  · intro changed member
    obtain ⟨rule, present, rfl⟩ := List.mem_map.mp member
    split
    · exact (declared.rules rule present).forbid pattern
    · exact declared.rules rule present

theorem Orderly.foldl_forbid (orderly : prohibitions.Orderly) (owner : String)
    (patterns : List String) : (patterns.foldl (·.forbid owner ·) prohibitions).Orderly := by
  induction patterns generalizing prohibitions with
  | nil => exact orderly
  | cons pattern rest ih => exact ih (orderly.forbid owner pattern)

/-- Rules of any form are orderly once they are registered. -/
theorem Orderly.foldl_register (orderly : prohibitions.Orderly) (rules : List PackageRule) :
    (rules.foldl register prohibitions).Orderly := by
  induction rules generalizing prohibitions with
  | nil => exact orderly
  | cons rule rest ih =>
    exact ih ((orderly.declare rule.package).foldl_forbid rule.package rule.forbidden)

/-- A registration, or reading, which replaces the rules unless it fails. -/
inductive RuleCall where
  | register (registration : Registration)
  | read (text : String)

def RuleCall.apply (prohibitions : Prohibitions) : RuleCall → Prohibitions
  | .register registration => registration.apply prohibitions
  | .read text => (ofJsonText? text).getD prohibitions

/-- The rules after some calls. -/
def run (calls : List RuleCall) : Prohibitions := calls.foldl RuleCall.apply empty

theorem Orderly.apply (orderly : prohibitions.Orderly) (call : RuleCall) :
    (call.apply prohibitions).Orderly := by
  cases call with
  | register registration =>
    cases registration with
    | owner owner => exact orderly.declare owner
    | prohibition owner pattern => exact orderly.forbid owner pattern
  | read text =>
    rw [RuleCall.apply]
    cases found : ofJsonText? text with
    | none => exact orderly
    | some stored =>
      obtain ⟨value, -, rebuilt⟩ := Option.bind_eq_some_iff.mp found
      obtain ⟨rules, -, rfl⟩ := Option.map_eq_some_iff.mp rebuilt
      exact orderly_empty.foldl_register rules

theorem run_orderly (calls : List RuleCall) : (run calls).Orderly := by
  suffices kept : ∀ prohibitions : Prohibitions, prohibitions.Orderly →
      (calls.foldl RuleCall.apply prohibitions).Orderly from kept empty orderly_empty
  intro prohibitions orderly
  induction calls generalizing prohibitions with
  | nil => exact orderly
  | cons call rest ih => exact ih _ (orderly.apply call)

/-! ### Registering orderly rules again -/

/-- A pattern for the last owner joins the last rule, as the other rules have other owners. -/
theorem forbid_last {before : List PackageRule} (rule : PackageRule)
    (others : ∀ other ∈ before, other.package ≠ rule.package) (pattern : String) :
    forbid ⟨before ++ [rule]⟩ rule.package pattern = ⟨before ++ [rule.forbid pattern]⟩ := by
  have known : ∃ other ∈ before ++ [rule], other.package = rule.package :=
    ⟨rule, List.mem_append_right before (.head _), rfl⟩
  have kept : before.map (fun other =>
      if other.package = rule.package then other.forbid pattern else other) = before := by
    refine (List.map_congr_left fun other member => ?_).trans (List.map_id before)
    exact if_neg (others other member)
  rw [forbid, declare_of_known known, List.map_append, kept, List.map_singleton, if_pos rfl]

/-- New patterns are appended one after the other. -/
theorem foldl_forbid_last {before : List PackageRule} {owner : String}
    (held patterns : List String)
    (others : ∀ other ∈ before, other.package ≠ owner) (nodup : (held ++ patterns).Nodup)
    (foreign : owner ∉ patterns) :
    patterns.foldl (·.forbid owner ·) ⟨before ++ [⟨owner, held⟩]⟩ =
      (⟨before ++ [⟨owner, held ++ patterns⟩]⟩ : Prohibitions) := by
  induction patterns generalizing held with
  | nil => rw [List.foldl_nil, List.append_nil]
  | cons pattern rest ih =>
    rw [List.mem_cons, not_or] at foreign
    have fresh : PackageRule.forbid ⟨owner, held⟩ pattern = ⟨owner, held ++ [pattern]⟩ := by
      rw [PackageRule.forbid, if_neg]
      rintro (same | old)
      · exact foreign.1 same.symm
      · exact List.disjoint_of_nodup_append nodup old (.head _)
    rw [List.foldl_cons, forbid_last ⟨owner, held⟩ others, fresh, ih, List.append_assoc]
    · rfl
    · rwa [List.append_assoc]
    · exact foreign.2

theorem Orderly.foldl_register_empty (orderly : prohibitions.Orderly) :
    prohibitions.rules.foldl register empty = prohibitions := by
  obtain ⟨rules⟩ := prohibitions
  induction rules using List.reverseRecOn with
  | nil => rfl
  | append_singleton rules last ih =>
    obtain ⟨nodup, each⟩ := orderly
    rw [List.map_append, List.map_singleton] at nodup
    -- The last rule finds no rule of its owner, and its patterns then come one after the other.
    have others : ∀ other ∈ rules, other.package ≠ last.package := fun other member same =>
      List.disjoint_of_nodup_append nodup (List.mem_map_of_mem member) (same ▸ .head _)
    have earlier := ih ⟨nodup.of_append_left, fun rule member =>
      each rule (List.mem_append_left _ member)⟩
    have orderlyLast := each last (List.mem_append_right _ (.head _))
    rw [List.foldl_append, earlier, List.foldl_cons, List.foldl_nil, register,
      declare_of_fresh others]
    exact foldl_forbid_last [] _ others orderlyLast.nodup orderlyLast.foreign

theorem Orderly.ofJson?_toJson (orderly : prohibitions.Orderly) :
    ofJson? prohibitions.toJson = some prohibitions := by
  rw [ofJson?, toJson, Json.list?_map fun rule _ => rule.ofJson?_toJson, Option.map_some,
    orderly.foldl_register_empty]

theorem textual_toJson (prohibitions : Prohibitions) : prohibitions.toJson.Textual := by
  apply Json.Textual.array
  intro item member
  obtain ⟨rule, -, rfl⟩ := List.mem_map.mp member
  exact rule.textual_toJson

/-- However rules were registered and read, each owner has one rule, no rule holds a pattern twice or
its own owner, and the rules are the same when they are written, on one line or indented, and read
again. -/
theorem run_reads_back (calls : List RuleCall) :
    let prohibitions := run calls
    (prohibitions.rules.map (·.package)).Nodup ∧
    (∀ rule ∈ prohibitions.rules, rule.forbidden.Nodup ∧ rule.package ∉ rule.forbidden) ∧
    ofJsonText? prohibitions.toJson.compact = some prohibitions ∧
    ofJsonText? (prohibitions.toJson.pretty 0) = some prohibitions := by
  intro prohibitions
  have orderly : prohibitions.Orderly := run_orderly calls
  have textual := prohibitions.textual_toJson
  refine ⟨orderly.owners_nodup, fun rule member =>
    ⟨(orderly.rules rule member).nodup, (orderly.rules rule member).foreign⟩, ?_, ?_⟩
  · rw [ofJsonText?, textual.read?_compact, Option.bind_some, orderly.ofJson?_toJson]
  · rw [ofJsonText?, textual.read?_pretty, Option.bind_some, orderly.ofJson?_toJson]

end Prohibitions

end PackageAudit
