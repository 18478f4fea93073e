import Mathlib.Data.List.Chain
import Mathlib.Tactic.MkIffOfInductiveProp
import PackageAudit.Proofs.ClassFile.SignatureGrammar
/-!
Formal type parameters.

The signature of a class or method may begin with a section of type parameters, each with a name, a class
bound behind a colon, which may be left out, and interface bounds behind colons of their own. Behind the
first colon the scanner looks at one character to tell a class bound from what comes after a missing one.
A colon and the end of the section cannot begin a bound, but the name of the next parameter can. So all is
well unless a parameter without any bound stands before one whose name begins like a type: there, and only
there, the name is read as a bound.
-/

namespace PackageAudit.ClassFile.Signature

/-! ### Trees -/

structure FormalParameter where
  name : String
  classBound : Option TypeTree
  interfaceBounds : List TypeTree

/-- The signature of a class or method with formal type parameters, of which there is at least one. -/
structure GenericSignature where
  first : FormalParameter
  others : List FormalParameter
  rest : SignatureTree

/-- A bound is a class, an array or a type parameter. -/
def TypeTree.IsReference : TypeTree → Prop
  | .primitive _ => False
  | .array _ | .variable _ | .classType _ _ _ _ => True

namespace FormalParameter

def print (formal : FormalParameter) : List Char :=
  formal.name.toList ++ (':' :: ((formal.classBound.map TypeTree.print).getD [] ++
    formal.interfaceBounds.flatMap fun bound => ':' :: bound.print))

def names (formal : FormalParameter) : List String :=
  (formal.classBound.map TypeTree.names).getD [] ++ formal.interfaceBounds.flatMap TypeTree.names

@[mk_iff]
structure Valid (formal : FormalParameter) : Prop where
  named : IsIdentifier formal.name
  classBound : ∀ bound ∈ formal.classBound, bound.IsReference ∧ bound.Valid
  interfaceBounds : ∀ bound ∈ formal.interfaceBounds, bound.Valid

/-- Neither a class nor an interface bounds the parameter. -/
def Unbounded (formal : FormalParameter) : Prop :=
  formal.classBound = none ∧ formal.interfaceBounds = []

/-- The name begins with a letter with which the bound of another parameter could begin. -/
def BeginsLikeType (formal : FormalParameter) : Prop :=
  formal.name.toList.head? = some 'L' ∨ formal.name.toList.head? = some 'T'

end FormalParameter

/-- No name that begins like a type stands behind a parameter without bounds. -/
def Clear (formals : List FormalParameter) : Prop :=
  formals.IsChain fun one next => one.Unbounded → ¬next.BeginsLikeType

namespace GenericSignature

def formals (tree : GenericSignature) : List FormalParameter := tree.first :: tree.others

def print (tree : GenericSignature) : List Char :=
  '<' :: (tree.formals.flatMap FormalParameter.print ++ ('>' :: tree.rest.print))

def names (tree : GenericSignature) : List String :=
  tree.formals.flatMap FormalParameter.names ++ tree.rest.names

def Valid (tree : GenericSignature) : Prop :=
  (∀ formal ∈ tree.formals, formal.Valid) ∧ tree.rest.Valid

end GenericSignature

/-! ### Scanning -/

variable {state after : State} {text : List Char} {names : List String} {c : Char}

theorem Scans.exists_of_cons (scans : Scans state (c :: text) names after) :
    ∃ middle more, next state c = some middle ∧ names = (named? state c).toList ++ more ∧
      Scans middle text more after := by
  cases scans with
  | cons step rest => exact ⟨_, _, step, rfl, rest⟩

/-- A class bound that is given is told from one that is missing. -/
theorem TypeTree.Valid.scans_classBound {bound : TypeTree} (valid : bound.Valid)
    (reference : bound.IsReference) :
    Scans .classBound bound.print bound.names (.resting .bound) := by
  have scans := valid.scans (begins_typeStart 0 .bound)
  have begins : ∃ c text, bound.print = c :: text ∧ (c = 'L' ∨ c = 'T' ∨ c = '[') := by
    match bound with
    | .primitive _ => exact absurd reference id
    | .array _ => exact ⟨_, _, rfl, .inr (.inr rfl)⟩
    | .variable _ => exact ⟨_, _, rfl, .inr (.inl rfl)⟩
    | .classType _ _ _ _ => exact ⟨_, _, rfl, .inl rfl⟩
  obtain ⟨c, text, print, first⟩ := begins
  rw [print] at scans ⊢
  -- Behind its first character the bound is scanned as it would be at the start of a type.
  obtain ⟨middle, more, step, names, rest⟩ := scans.exists_of_cons
  rw [names]
  refine .silent ?_ rfl rest
  obtain rfl | rfl | rfl := first <;> exact step

/-- Where a class bound is missing or complete, a colon leads to an interface bound. -/
theorem scans_interfaceBounds {bounds : List TypeTree} (valid : ∀ bound ∈ bounds, bound.Valid)
    (colon : next state ':' = some (.typeStart 0 .bound)) (silent : named? state ':' = none) :
    Scans state (bounds.flatMap fun bound => ':' :: bound.print) (bounds.flatMap TypeTree.names)
      (if bounds = [] then state else .resting .bound) := by
  cases bounds with
  | nil => exact .nil state
  | cons bound rest =>
    rw [List.forall_mem_cons] at valid
    have one : Scans state (':' :: bound.print) bound.names (.resting .bound) :=
      .silent colon silent (valid.1.scans (begins_typeStart 0 .bound))
    have others := scans_flatMap valid.2 (fun bound => ':' :: bound.print) fun bound valid =>
      Scans.silent rfl rfl (valid.scans (begins_typeStart 0 .bound))
    exact one.append others

/-- In this state the name of a parameter may begin. -/
def Opens (state : State) (name : String) : Prop :=
  ∀ c ∈ name.toList.head?, next state c = some .formalName ∧ named? state c = none

namespace FormalParameter

variable {formal : FormalParameter}

/-- Where the scanner stands behind a parameter. -/
def ending (formal : FormalParameter) : State :=
  match formal.classBound, formal.interfaceBounds with
  | none, [] => .classBound
  | _, _ => .resting .bound

theorem scans_formalName {name : List Char} (noColon : ∀ c ∈ name, c ≠ ':') :
    Scans .formalName (name ++ [':']) [] .classBound := by
  induction name with
  | nil => exact .silent rfl rfl (.nil _)
  | cons c rest ih =>
    rw [List.forall_mem_cons] at noColon
    exact .silent (by rw [next, if_neg noColon.1]) rfl (ih noColon.2)

theorem Valid.scans (valid : formal.Valid) (opens : Opens state formal.name) :
    Scans state formal.print formal.names formal.ending := by
  obtain ⟨name, classBound, interfaceBounds⟩ := formal
  obtain ⟨named, classValid, interfaceValid⟩ := valid
  have noColon : ∀ c ∈ name.toList, c ≠ ':' := fun c member same =>
    named.2 c member (by simp [same])
  obtain ⟨c, rest, characters⟩ := List.exists_cons_of_ne_nil named.1
  have opened := opens c (by simp [characters])
  rw [characters, List.forall_mem_cons] at noColon
  have label : Scans state (name.toList ++ [':']) [] .classBound := by
    rw [characters]
    exact .silent opened.1 opened.2 (scans_formalName noColon.2)
  have bounds : Scans .classBound
      ((classBound.map TypeTree.print).getD [] ++ interfaceBounds.flatMap fun bound => ':' :: bound.print)
      ((classBound.map TypeTree.names).getD [] ++ interfaceBounds.flatMap TypeTree.names)
      (FormalParameter.mk name classBound interfaceBounds).ending := by
    cases classBound with
    | none =>
      have scans : Scans .classBound _ _ _ := scans_interfaceBounds interfaceValid rfl rfl
      cases interfaceBounds <;> exact scans
    | some bound =>
      obtain ⟨reference, boundValid⟩ := classValid bound rfl
      have scans : Scans (.resting .bound) _ _ _ := scans_interfaceBounds interfaceValid rfl rfl
      rw [ite_self] at scans
      exact (boundValid.scans_classBound reference).append scans
  have all := label.append bounds
  rwa [List.append_assoc] at all

/-- Behind a parameter with a bound every name opens the next parameter, and behind one without all names
that do not begin like a type. -/
theorem opens_ending {next : FormalParameter} (valid : next.Valid)
    (clear : formal.Unbounded → ¬next.BeginsLikeType) : Opens formal.ending next.name := by
  intro c first
  have apart := valid.named.2 c (List.mem_of_head? first)
  simp only [List.mem_cons, List.not_mem_nil, or_false, not_or] at apart
  have resting : continueFormals c = some .formalName := by simp [continueFormals, apart]
  unfold ending
  split
  -- Only without a bound does the letter matter, for then a class bound could still come.
  next noClass noInterface =>
    have letter := clear ⟨noClass, noInterface⟩
    rw [BeginsLikeType, first, Option.some.injEq, Option.some.injEq, not_or] at letter
    exact ⟨by simp [Signature.next, letter, apart, resting], rfl⟩
  next => exact ⟨resting, rfl⟩

theorem opens_formals (valid : formal.Valid) : Opens .formals formal.name := by
  intro c first
  have apart := valid.named.2 c (List.mem_of_head? first)
  simp only [List.mem_cons, List.not_mem_nil, or_false, not_or] at apart
  exact ⟨by simp [next, apart], rfl⟩

theorem closes_ending (formal : FormalParameter) :
    next formal.ending '>' = some .body ∧ named? formal.ending '>' = none := by
  unfold ending
  split <;> exact ⟨rfl, rfl⟩

end FormalParameter

theorem scans_formals {first : FormalParameter} {others : List FormalParameter}
    (valid : ∀ formal ∈ first :: others, formal.Valid) (clear : Clear (first :: others))
    (opens : Opens state first.name) :
    Scans state ((first :: others).flatMap FormalParameter.print)
      ((first :: others).flatMap FormalParameter.names)
      ((first :: others).getLast (List.cons_ne_nil _ _)).ending := by
  induction others generalizing state first with
  | nil =>
    simpa using (valid first List.mem_cons_self).scans opens
  | cons second others ih =>
    rw [List.forall_mem_cons] at valid
    obtain ⟨apart, later⟩ := List.isChain_cons_cons.mp clear
    have opened := FormalParameter.opens_ending (valid.2 second List.mem_cons_self) apart
    exact (valid.1.scans opens).append (ih valid.2 later opened)

theorem begins_body : Begins .body 0 .sequence := by
  apply begins_of_separators (fun _ => rfl)
  intro c apart
  simp only [List.mem_cons, List.not_mem_nil, or_false, not_or] at apart
  simp [next, beginBody, apart]

theorem GenericSignature.scans (tree : GenericSignature) (valid : tree.Valid)
    (clear : Clear tree.formals) : Scans .start tree.print tree.names (.resting tree.rest.ending) := by
  obtain ⟨formalsValid, restValid⟩ := valid
  have opens := FormalParameter.opens_formals (formalsValid tree.first List.mem_cons_self)
  have formals := scans_formals formalsValid clear opens
  have closes := FormalParameter.closes_ending (tree.formals.getLast (List.cons_ne_nil _ _))
  have rest := tree.rest.scans_from restValid begins_body rfl rfl
  exact .silent rfl rfl (formals.append (.silent closes.1 closes.2 rest))

/-- The scanner finds in a signature with formal type parameters exactly the class names in their bounds and
then those of the rest, provided that no name that begins like a type stands behind a parameter without
bounds. -/
theorem classNames_print_generic (tree : GenericSignature) (valid : tree.Valid)
    (clear : Clear tree.formals) :
    classNames (String.ofList tree.print) = tree.names ∧
      tree.print.foldlM next .start = some (.resting tree.rest.ending) := by
  have scans := tree.scans valid clear
  exact ⟨scans.classNames_eq, scans.foldlM_eq⟩

/-- Bounds of each kind, and a parameter without any that is the last. -/
theorem classNames_print_generic_bounds :
    let first : FormalParameter :=
      ⟨"K", some (.classType ["com", "base"] "Base" .nil .nil),
        [.classType ["com", "mark"] "Mark" (.type .below (.variable "K") .nil) .nil]⟩
    let second : FormalParameter := ⟨"L", none, [.classType ["com", "odd"] "Odd" .nil .nil]⟩
    let third : FormalParameter := ⟨"T", none, []⟩
    let tree : GenericSignature := ⟨first, [second, third],
      .method [.variable "K"] (.variable "T") [.classType ["com", "fail"] "Fail" .nil .nil]⟩
    tree.Valid ∧ Clear tree.formals ∧ String.ofList tree.print =
        "<K:Lcom/base/Base;:Lcom/mark/Mark<-TK;>;L::Lcom/odd/Odd;T:>(TK;)TT;^Lcom/fail/Fail;" ∧
      classNames (String.ofList tree.print) =
        ["com/base/Base", "com/mark/Mark", "com/odd/Odd", "com/fail/Fail"] ∧
      tree.print.foldlM next .start = some (.resting .result) := by
  intro first second third tree
  have valid : tree.Valid := by
    simp only [tree, first, second, third, GenericSignature.Valid, GenericSignature.formals,
      FormalParameter.valid_iff, SignatureTree.Valid, TypeTree.Valid, TypeTree.Named, Arguments.Named,
      Inner.Named, TypeTree.levels, Arguments.levels, Inner.levels, TypeTree.IsReference,
      List.forall_mem_cons, List.not_mem_nil, Option.mem_def, Option.some.injEq, forall_eq',
      reduceCtorEq, false_implies, implies_true]
    decide
  have clear : Clear tree.formals := by
    simp [Clear, GenericSignature.formals, tree, first, second, third, FormalParameter.Unbounded]
  have scanned := classNames_print_generic tree valid clear
  have names : tree.names = ["com/base/Base", "com/mark/Mark", "com/odd/Odd", "com/fail/Fail"] := by
    decide
  exact ⟨valid, clear, by decide, names ▸ scanned.1, scanned.2⟩

/-! ### Names read as bounds -/

/-- The first name that begins like a type behind a parameter without bounds. -/
theorem exists_of_not_clear {formals : List FormalParameter} (unclear : ¬Clear formals) :
    ∃ before one next after, formals = before ++ one :: next :: after ∧ Clear (before ++ [one]) ∧
      one.Unbounded ∧ next.BeginsLikeType := by
  induction formals with
  | nil => exact absurd List.IsChain.nil unclear
  | cons first others ih =>
    cases others with
    | nil => exact absurd (List.IsChain.singleton first) unclear
    | cons second others =>
      by_cases apart : first.Unbounded → ¬second.BeginsLikeType
      · have later : ¬Clear (second :: others) := fun clear =>
          unclear (List.isChain_cons_cons.mpr ⟨apart, clear⟩)
        obtain ⟨before, one, next, after, split, clear, found⟩ := ih later
        refine ⟨first :: before, one, next, after, by rw [split, List.cons_append], ?_, found⟩
        -- The second parameter comes first in what is clear.
        cases before with
        | nil =>
          obtain ⟨rfl, -⟩ := List.cons.inj split
          exact List.isChain_cons_cons.mpr ⟨apart, clear⟩
        | cons _ before =>
          obtain ⟨rfl, -⟩ := List.cons.inj split
          exact List.isChain_cons_cons.mpr ⟨apart, clear⟩
      · rw [Classical.not_imp, not_not] at apart
        exact ⟨[], first, second, others, rfl, List.IsChain.singleton first, apart⟩

theorem FormalParameter.Unbounded.ending_eq {formal : FormalParameter} (unbounded : formal.Unbounded) :
    formal.ending = .classBound := by
  rw [FormalParameter.ending, unbounded.1, unbounded.2]

/-- Where no bound stands before a name that begins like a type, the first letter of the name begins a
bound. -/
theorem GenericSignature.misreads (tree : GenericSignature) (valid : tree.Valid)
    (unclear : ¬Clear tree.formals) :
    ∃ before one other after c name middle, tree.formals = before ++ one :: other :: after ∧
      one.Unbounded ∧ other.name.toList = c :: name ∧ beginType 0 .bound c = some middle ∧
      Scans .start ('<' :: ((before ++ [one]).flatMap FormalParameter.print ++ [c]))
        ((before ++ [one]).flatMap FormalParameter.names) middle := by
  obtain ⟨before, one, other, after, split, clear, unbounded, letter⟩ := exists_of_not_clear unclear
  obtain ⟨first, others, same⟩ := List.exists_cons_of_ne_nil (List.append_ne_nil_of_right_ne_nil before
    (List.cons_ne_nil one []))
  -- What comes before the name is scanned as it should be.
  have known : ∀ formal ∈ first :: others, formal.Valid := by
    intro formal member
    apply valid.1
    rw [← same] at member
    rw [split, List.append_cons]
    exact List.mem_append_left _ member
  have scans := scans_formals known (same ▸ clear)
    (FormalParameter.opens_formals (known first List.mem_cons_self))
  have last : ((first :: others).getLast (List.cons_ne_nil _ _)) = one := by simp [← same]
  rw [last, unbounded.ending_eq, ← same] at scans
  have step : ∃ c name middle, other.name.toList = c :: name ∧ beginType 0 .bound c = some middle ∧
      Signature.next .classBound c = some middle := by
    rcases letter with first | first <;> obtain ⟨name, print⟩ := List.head?_eq_some_iff.mp first
    · exact ⟨_, name, _, print, rfl, rfl⟩
    · exact ⟨_, name, _, print, rfl, rfl⟩
  obtain ⟨c, name, middle, print, begun, step⟩ := step
  have all : Scans .start ('<' :: _) _ middle :=
    .silent rfl rfl (scans.append (.silent step rfl (.nil middle)))
  rw [List.append_nil] at all
  exact ⟨before, one, other, after, c, name, middle, split, unbounded, print, begun, all⟩

/-- The name of the second parameter is read as a bound, so its own bound is lost and a class that the
signature does not name is found. -/
theorem classNames_print_misread_name :
    let second : FormalParameter := ⟨"L", some (.classType ["x"] "Y" .nil .nil), []⟩
    let tree : GenericSignature :=
      ⟨⟨"K", none, []⟩, [second], .field (.classType ["z"] "W" .nil .nil)⟩
    tree.Valid ∧ String.ofList tree.print = "<K:L:Lx/Y;>Lz/W;" ∧ tree.names = ["x/Y", "z/W"] ∧
      classNames (String.ofList tree.print) = [":Lx/Y", "z/W"] := by
  intro second tree
  have valid : tree.Valid := by
    simp only [tree, second, GenericSignature.Valid, GenericSignature.formals,
      FormalParameter.valid_iff, SignatureTree.Valid, TypeTree.Valid, TypeTree.Named, Arguments.Named,
      Inner.Named, TypeTree.levels, Arguments.levels, Inner.levels, TypeTree.IsReference,
      List.forall_mem_cons, List.not_mem_nil, Option.mem_def, Option.some.injEq, forall_eq',
      reduceCtorEq, false_implies, implies_true]
    decide
  exact ⟨valid, by decide, by decide, by decide⟩

end PackageAudit.ClassFile.Signature
