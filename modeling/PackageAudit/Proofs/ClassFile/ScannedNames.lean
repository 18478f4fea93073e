import PackageAudit.ClassFile.Signature
/-!
What is reported of text that goes on, and of text that breaks off.

The scanner reads each character once and reports a name at the character behind it. So nothing that
follows takes back or comes between what has been reported, and where the grammar is broken nothing is
added. Within a name, the scanner keeps what has been read behind the letter with which class types begin;
so a name that is reported stands in the text as it is, between that letter and a character that ends names.
-/

namespace PackageAudit.ClassFile.Signature

variable {state after : State} {seen read : List Char} {c : Char} {depth : Nat} {place : Place}

/-! ### Text that goes on -/

/-- Behind some text the scan goes on where that text has led it, if it has led anywhere. -/
theorem namesFrom_append (state : State) (text more : List Char) :
    namesFrom state (text ++ more) = namesFrom state text ++
      ((text.foldlM next state).map fun after => namesFrom after more).getD [] := by
  induction text generalizing state with
  | nil => rfl
  | cons c text ih =>
    rw [List.cons_append, namesFrom, namesFrom, List.foldlM_cons]
    cases named? state c <;> cases next state c <;> simp [ih]

theorem mem_namesFrom_cons {name : String} {text : List Char} :
    name ∈ namesFrom state (c :: text) ↔ named? state c = some name ∨
      ∃ after, next state c = some after ∧ name ∈ namesFrom after text := by
  rw [namesFrom]
  cases named? state c <;> cases next state c <;> simp [eq_comm]

/-! ### Where a name begins and ends -/

@[simp] theorem typeDone_ne_className (depth other : Nat) (place elsewhere : Place) (seen : List Char) :
    typeDone depth place ≠ .className seen other elsewhere := by
  rw [typeDone]
  split <;> exact State.noConfusion

theorem beginType_className {depth other : Nat} {place elsewhere : Place}
    (step : beginType depth place c = some (.className seen other elsewhere)) :
    c = 'L' ∧ seen = [] := by
  -- Of the characters that begin a type only one leads into a name.
  unfold beginType at step
  split at step <;> simp at step
  exact ⟨rfl, step.1⟩

theorem endName_className {depth other : Nat} {place elsewhere : Place} :
    endName depth place c ≠ some (.className seen other elsewhere) := by
  intro step
  unfold endName at step
  split at step
  · simp at step
  · split at step <;> cases step
  · cases step
  · cases step

theorem continueFormals_className {other : Nat} {elsewhere : Place} :
    continueFormals c ≠ some (.className seen other elsewhere) := by
  intro step
  unfold continueFormals at step
  split at step <;> cases step

theorem beginBody_className {other : Nat} {elsewhere : Place}
    (step : beginBody c = some (.className seen other elsewhere)) : c = 'L' ∧ seen = [] := by
  rw [beginBody] at step
  split at step
  · cases step
  · exact beginType_className step

/-- A name begins behind the letter of class types and goes on until a character ends it. -/
theorem next_className (step : next state c = some (.className seen depth place)) :
    (c = 'L' ∧ seen = []) ∨
      ∃ older, state = .className older depth place ∧ seen = c :: older ∧ endsName c = false := by
  -- A name begins only where a type may begin, which some states leave to what reads the type.
  cases state with
  | start =>
    simp only [next] at step
    split at step
    · cases step
    · exact .inl (beginBody_className step)
  | body => exact .inl (beginBody_className step)
  | resting place =>
    cases place with
    | sequence => exact .inl (beginType_className step)
    | parameters =>
      simp only [next] at step
      split at step
      · cases step
      · exact .inl (beginType_className step)
    | result =>
      simp only [next] at step
      split at step <;> cases step
    | bound => exact absurd step continueFormals_className
  | formals =>
    simp only [next] at step
    split at step
    · cases step
    · split at step <;> cases step
  | formalName =>
    simp only [next] at step
    split at step <;> cases step
  | classBound =>
    simp only [next] at step
    split at step
    · exact .inl (beginType_className step)
    · exact absurd step continueFormals_className
  | typeStart depth place => exact .inl (beginType_className step)
  | «variable» depth place =>
    simp only [next] at step
    split at step <;> simp at step
  | className older depth place =>
    simp only [next] at step
    split at step
    · exact absurd step endName_className
    next inside =>
      cases step
      exact .inr ⟨older, rfl, rfl, Bool.eq_false_iff.mpr inside⟩
  | innerName depth place =>
    simp only [next] at step
    split at step
    · exact absurd step endName_className
    · cases step
  | arguments depth place =>
    simp only [next] at step
    split at step
    · cases step
    · split at step
      · cases step
      · split at step
        · cases step
        · exact .inl (beginType_className step)
  | argumentsClosed depth place => exact absurd step endName_className

theorem exists_of_named? {name : String} (named : named? state c = some name) :
    ∃ seen depth place, state = .className seen depth place ∧ seen ≠ [] ∧
      name.toList = seen.reverse ∧ endsName c = true := by
  unfold named? at named
  split at named
  next last seen depth place =>
    split at named
    next ends =>
      cases named
      exact ⟨last :: seen, depth, place, rfl, List.cons_ne_nil last seen, String.toList_ofList, ends⟩
    next => cases named
  next => cases named

/-! ### Names in the text -/

/-- A class type in the text has this name: it stands behind the letter of class types, and behind it a
character that ends names. -/
def StandsIn (name text : List Char) : Prop :=
  ∃ before ending later, text = before ++ 'L' :: (name ++ ending :: later) ∧ name ≠ [] ∧
    (∀ c ∈ name, c ∉ [';', '<', '.']) ∧ ending ∈ [';', '<', '.']

theorem endsName_iff : endsName c = true ↔ c ∈ [';', '<', '.'] := by
  simp [endsName, or_assoc]

/-- Within a name, the scanner keeps what it has read behind the letter of class types. -/
def Keeps (read : List Char) (state : State) : Prop :=
  ∀ seen depth place, state = .className seen depth place →
    (∃ before, read = before ++ 'L' :: seen.reverse) ∧ ∀ c ∈ seen, endsName c = false

theorem Keeps.next (keeps : Keeps read state) (step : next state c = some after) :
    Keeps (read ++ [c]) after := by
  rintro seen depth place rfl
  obtain ⟨rfl, rfl⟩ | ⟨older, same, rfl, inside⟩ := next_className step
  · exact ⟨⟨read, rfl⟩, nofun⟩
  · obtain ⟨⟨before, split⟩, others⟩ := keeps older depth place same
    refine ⟨⟨before, ?_⟩, List.forall_mem_cons.mpr ⟨inside, others⟩⟩
    rw [split, List.reverse_cons, List.append_assoc, List.cons_append]

theorem Keeps.standsIn {name : String} (keeps : Keeps read state)
    (named : named? state c = some name) (later : List Char) :
    StandsIn name.toList (read ++ c :: later) := by
  obtain ⟨seen, depth, place, same, some, written, ends⟩ := exists_of_named? named
  obtain ⟨⟨before, split⟩, inside⟩ := keeps seen depth place same
  rw [written, split]
  refine ⟨before, c, later, by simp, by simpa using some, ?_, endsName_iff.mp ends⟩
  intro kept member
  rw [← endsName_iff, inside kept (List.mem_reverse.mp member)]
  exact Bool.false_ne_true

/-- Whatever has been read, each name that is reported from there on stands in the whole text. -/
theorem Keeps.standsIn_of_mem {name : String} {text : List Char} (keeps : Keeps read state)
    (member : name ∈ namesFrom state text) : StandsIn name.toList (read ++ text) := by
  induction text generalizing state read with
  | nil => cases member
  | cons c text ih =>
    -- The name is complete at this character, or it is reported behind it.
    rcases mem_namesFrom_cons.mp member with named | ⟨after, step, later⟩
    · exact keeps.standsIn named text
    · rw [List.append_cons]
      exact ih (keeps.next step) later

theorem standsIn_of_mem_classNames {name text : String} (member : name ∈ classNames text) :
    StandsIn name.toList text.toList := by
  -- Before anything is read, there is nothing to keep.
  have start : Keeps [] .start := fun _ _ _ within => State.noConfusion within
  exact start.standsIn_of_mem member

/-- Text that goes on adds names behind those reported already, so text that is malformed or cut off costs
none of them. Each name is a part of the text, behind the letter of class types and before a character
that ends names. -/
theorem classNames_append (text more : String) :
    classNames text <+: classNames (text ++ more) ∧
      ∀ name ∈ classNames text, StandsIn name.toList text.toList := by
  refine ⟨?_, fun _ => standsIn_of_mem_classNames⟩
  rw [classNames, classNames, String.toList_append, namesFrom_append]
  exact List.prefix_append _ _

/-- A method descriptor with an unknown type in it, behind which nothing is read. -/
theorem classNames_append_unknown_type :
    classNames "(Ljava/io/File;Q)" = ["java/io/File"] ∧
      classNames "(Ljava/io/File;Q)" <+: classNames ("(Ljava/io/File;Q)" ++ "Lcom/acme/Never;") ∧
      StandsIn "java/io/File".toList "(Ljava/io/File;Q)".toList := by
  have named : classNames "(Ljava/io/File;Q)" = ["java/io/File"] := by decide +kernel
  have all := classNames_append "(Ljava/io/File;Q)" "Lcom/acme/Never;"
  exact ⟨named, all.1, all.2 "java/io/File" (named ▸ .head _)⟩

end PackageAudit.ClassFile.Signature
