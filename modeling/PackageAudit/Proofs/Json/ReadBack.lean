import PackageAudit.Json.Reader
import PackageAudit.Json.Writer
/-!
JSON values made of text read back as they were written.

A written value is scanned into its tokens whatever follows it, for a string ends at its quote and an
array or object at its bracket; so the tokens of a text are those of its parts in order, and white
space between them adds none. The reader then rebuilds the value from the tokens alone, with the
containers around it on its stack. Numbers and words end only at the character behind them and are
left out here.
-/

namespace PackageAudit.Json

/-- Values made of strings, arrays and objects only. -/
inductive Textual : Json → Prop
  | string (text : Option String) : Textual (.string text)
  | array {items : List Json} (each : ∀ item ∈ items, Textual item) : Textual (.array items)
  | object {members : List (Option String × Json)} (each : ∀ member ∈ members, Textual member.2) :
    Textual (.object members)

mutual

def tokens : Json → List Token
  | .array items => .openArray :: (itemTokens items ++ [.closeArray])
  | .object members => .openObject :: (memberTokens members ++ [.closeObject])
  | scalar => [.scalar scalar]

def itemTokens : List Json → List Token
  | [] => []
  | [item] => item.tokens
  | item :: rest => item.tokens ++ .comma :: itemTokens rest

def memberTokens : List (Option String × Json) → List Token
  | [] => []
  | [(key, value)] => .scalar (.string key) :: .colon :: value.tokens
  | (key, value) :: rest =>
    .scalar (.string key) :: .colon :: (value.tokens ++ .comma :: memberTokens rest)

end

/-! ### Scanning a string -/

theorem hexDigit?_hexDigitChar : ∀ digit < 16, hexDigit? (hexDigitChar digit) = some digit := by
  decide

theorem scanFrom_hexDigit {digit : Nat} (inRange : digit < 16) (pieces : List Piece)
    (count value : Nat) (seen : List Token) (rest : List Char) :
    scanFrom (.unicode pieces count value) seen (hexDigitChar digit :: rest) =
      if count = 3 then scanFrom (.string (pieceOfUnit (value * 16 + digit) :: pieces)) seen rest
      else scanFrom (.unicode pieces (count + 1) (value * 16 + digit)) seen rest := by
  simp only [scanFrom, scanChar, hexDigit?_hexDigitChar digit inRange]
  by_cases last : count = 3
  · simp only [last, if_true]
    rfl
  · simp only [last, if_false]
    rfl

/-- A character below U+0020 is written by its number, as the last two of four hex digits. -/
private theorem scanFrom_control {c : Char} (control : c.toNat < 0x20) (pieces : List Piece)
    (seen : List Token) (rest : List Char) :
    scanFrom (.string pieces) seen (['\\', 'u', '0', '0', hexDigitChar (c.toNat / 16),
        hexDigitChar (c.toNat % 16)] ++ rest) =
      scanFrom (.string (.char c :: pieces)) seen rest := by
  have unit : pieceOfUnit (c.toNat / 16 * 16 + c.toNat % 16) = .char c := by
    rw [Nat.div_add_mod', pieceOfUnit, if_neg (by simp; omega), Char.ofNat_toNat]
  calc scanFrom (.string pieces) seen (['\\', 'u', '0', '0', hexDigitChar (c.toNat / 16),
        hexDigitChar (c.toNat % 16)] ++ rest)
      = scanFrom (.unicode pieces 2 0) seen
          (hexDigitChar (c.toNat / 16) :: hexDigitChar (c.toNat % 16) :: rest) := rfl
    _ = scanFrom (.string (.char c :: pieces)) seen rest := by
      rw [scanFrom_hexDigit (by omega), if_neg (by decide), scanFrom_hexDigit (by omega),
        if_pos rfl, Nat.zero_mul, Nat.zero_add, unit]

theorem scanFrom_escapeChar (c : Char) (pieces : List Piece) (seen : List Token)
    (rest : List Char) :
    scanFrom (.string pieces) seen (escapeChar c ++ rest) =
      scanFrom (.string (.char c :: pieces)) seen rest := by
  unfold escapeChar
  split
  case h_8 quote backslash _ _ _ _ _ =>
    split
    next control => exact scanFrom_control control pieces seen rest
    next plain =>
      simp only [List.singleton_append, scanFrom, scanChar, if_neg quote, if_neg backslash,
        if_neg plain]
      rfl
  all_goals rfl

theorem toTextBehind?_chars (seen cs : List Char) :
    Piece.toTextBehind? seen (cs.map .char) = some (seen.reverse ++ cs) := by
  induction cs generalizing seen with
  | nil => rw [List.map_nil, Piece.toTextBehind?, List.append_nil]
  | cons c cs ih =>
    rw [List.map_cons, Piece.toTextBehind?, ih, List.reverse_cons, List.append_assoc,
      List.singleton_append]

theorem scanFrom_escaped (cs : List Char) (pieces : List Piece) (seen : List Token)
    (rest : List Char) :
    scanFrom (.string pieces) seen (cs.flatMap escapeChar ++ rest) =
      scanFrom (.string ((cs.map .char).reverse ++ pieces)) seen rest := by
  induction cs generalizing pieces with
  | nil => rfl
  | cons c cs ih =>
    rw [List.flatMap_cons, List.append_assoc, scanFrom_escapeChar, ih, List.map_cons,
      List.reverse_cons, List.append_assoc, List.singleton_append]

/-! ### Scanning a value -/

/-- Whatever follows a text, it is scanned into these tokens. -/
def Writes (text : String) (tokens : List Token) : Prop :=
  ∀ seen rest, scanFrom .between seen (text.toList ++ rest) =
    scanFrom .between (tokens.reverse ++ seen) rest

namespace Writes

theorem append {text other : String} {tokens others : List Token} (first : Writes text tokens)
    (second : Writes other others) : Writes (text ++ other) (tokens ++ others) := by
  intro seen rest
  rw [String.toList_append, List.append_assoc, first, second, List.reverse_append,
    List.append_assoc]

theorem trailing {text space : String} {tokens : List Token} (writes : Writes text tokens)
    (blank : Writes space []) : Writes (text ++ space) tokens := by
  have both := writes.append blank
  rwa [List.append_nil] at both

theorem tokens?_eq {text : String} {tokens : List Token} (writes : Writes text tokens) :
    tokens? text = some tokens := by
  have scanned := writes [] []
  rw [List.append_nil, List.append_nil] at scanned
  rw [tokens?, scanned, scanFrom, finishScan, Option.map_some, List.reverse_reverse,
    List.append_nil]

theorem empty : Writes "" [] := fun _ _ => rfl

theorem openArray : Writes "[" [.openArray] := fun _ _ => rfl

theorem closeArray : Writes "]" [.closeArray] := fun _ _ => rfl

theorem emptyArray : Writes "[]" [.openArray, .closeArray] := fun _ _ => rfl

theorem openObject : Writes "\x7b" [.openObject] := fun _ _ => rfl

theorem closeObject : Writes "\x7d" [.closeObject] := fun _ _ => rfl

theorem emptyObject : Writes "\x7b\x7d" [.openObject, .closeObject] := fun _ _ => rfl

theorem comma : Writes "," [.comma] := fun _ _ => rfl

theorem colon : Writes ":" [.colon] := fun _ _ => rfl

theorem spacedColon : Writes ": " [.colon] := fun _ _ => rfl

theorem lineStart (level : Nat) : Writes (lineStart level) [] := by
  intro seen rest
  have spaces (count : Nat) : scanFrom .between seen (List.replicate count ' ' ++ rest) =
      scanFrom .between seen rest := by
    induction count with
    | zero => rfl
    | succ count ih => exact ih
  simp only [Json.lineStart, String.toList_append, String.toList_ofList]
  exact spaces (2 * level)

theorem quoted (text : Option String) : Writes (quoted text) [.scalar (.string text)] := by
  intro seen rest
  cases text with
  | none => rfl
  | some text =>
    have pieces : Piece.toText? ((text.toList.map Piece.char).reverse ++ []).reverse =
        some text.toList := by
      rw [List.append_nil, List.reverse_reverse, Piece.toText?, toTextBehind?_chars]
      rfl
    calc scanFrom .between seen ((Json.quoted (some text)).toList ++ rest)
        = scanFrom (.string []) seen (text.toList.flatMap escapeChar ++ '"' :: rest) := by
          simp only [Json.quoted, String.toList_append, String.toList_ofList, List.append_assoc]
          rfl
      _ = scanFrom (.string ((text.toList.map Piece.char).reverse ++ [])) seen ('"' :: rest) :=
          scanFrom_escaped _ _ _ _
      _ = scanFrom .between (.scalar (.string (some text)) :: seen) rest := by
          simp only [scanFrom, scanChar, if_true, pieces, Option.map_some, String.ofList_toList]
          rfl

end Writes

/-- Texts and tokens of parts with commas between them. -/
structure Separated {α : Type} (text : α → String) (texts : List α → String)
    (tokens : α → List Token) (allTokens : List α → List Token) : Prop where
  nil : texts [] = "" ∧ allTokens [] = []
  single : ∀ part, texts [part] = text part ∧ allTokens [part] = tokens part
  cons : ∀ part next rest,
    texts (part :: next :: rest) = text part ++ "," ++ texts (next :: rest) ∧
    allTokens (part :: next :: rest) = tokens part ++ .comma :: allTokens (next :: rest)

theorem Separated.writes {α : Type} {text : α → String} {texts : List α → String}
    {tokens : α → List Token} {allTokens : List α → List Token}
    (separated : Separated text texts tokens allTokens) {parts : List α}
    (each : ∀ part ∈ parts, Writes (text part) (tokens part)) :
    Writes (texts parts) (allTokens parts) := by
  induction parts with
  | nil =>
    rw [separated.nil.1, separated.nil.2]
    exact Writes.empty
  | cons part rest ih =>
    obtain ⟨first, others⟩ := List.forall_mem_cons.mp each
    cases rest with
    | nil =>
      rw [(separated.single part).1, (separated.single part).2]
      exact first
    | cons next rest =>
      rw [(separated.cons part next rest).1, (separated.cons part next rest).2, List.append_cons]
      exact (first.append Writes.comma).append (ih others)

theorem Textual.writes_compact {value : Json} (textual : value.Textual) :
    Writes value.compact value.tokens := by
  induction textual with
  | string text => exact Writes.quoted text
  | array _ ih =>
    have items : Separated compact compactItems tokens itemTokens :=
      ⟨⟨rfl, rfl⟩, fun _ => ⟨rfl, rfl⟩, fun _ _ _ => ⟨rfl, rfl⟩⟩
    exact (Writes.openArray.append (items.writes ih)).append Writes.closeArray
  | object _ ih =>
    have members : Separated (fun member => quoted member.1 ++ ":" ++ compact member.2)
        compactMembers (fun member => .scalar (.string member.1) :: .colon :: member.2.tokens)
        memberTokens :=
      ⟨⟨rfl, rfl⟩, fun _ => ⟨rfl, rfl⟩, fun _ _ _ => ⟨rfl, rfl⟩⟩
    refine (Writes.openObject.append (members.writes fun member present => ?_)).append
      Writes.closeObject
    exact ((Writes.quoted member.1).append Writes.colon).append (ih member present)

theorem Textual.writes_pretty {value : Json} (textual : value.Textual) (level : Nat) :
    Writes (value.pretty level) value.tokens := by
  induction textual generalizing level with
  | string text => exact Writes.quoted text
  | @array items _ ih =>
    cases items with
    | nil => exact Writes.emptyArray
    | cons item rest =>
      have items : Separated (fun item => lineStart (level + 1) ++ pretty (level + 1) item)
          (prettyItems (level + 1)) tokens itemTokens :=
        ⟨⟨rfl, rfl⟩, fun _ => ⟨rfl, rfl⟩, fun _ _ _ => ⟨rfl, rfl⟩⟩
      have written := items.writes fun item present =>
        (Writes.lineStart (level + 1)).append (ih item present (level + 1))
      exact ((Writes.openArray.append written).trailing (Writes.lineStart level)).append
        Writes.closeArray
  | @object members _ ih =>
    cases members with
    | nil => exact Writes.emptyObject
    | cons member rest =>
      have members : Separated
          (fun member =>
            lineStart (level + 1) ++ quoted member.1 ++ ": " ++ pretty (level + 1) member.2)
          (prettyMembers (level + 1))
          (fun member => .scalar (.string member.1) :: .colon :: member.2.tokens) memberTokens :=
        ⟨⟨rfl, rfl⟩, fun _ => ⟨rfl, rfl⟩, fun _ _ _ => ⟨rfl, rfl⟩⟩
      have written := members.writes fun member present =>
        (((Writes.lineStart (level + 1)).append (Writes.quoted member.1)).append
          Writes.spacedColon).append (ih member present (level + 1))
      exact ((Writes.openObject.append written).trailing (Writes.lineStart level)).append
        Writes.closeObject

/-! ### Reading the tokens of a value -/

/-- Wherever a value may stand, its tokens are read as the value. -/
def Reads (value : Json) : Prop :=
  ∀ enclosing mayClose rest, readTokens (.value enclosing mayClose) (value.tokens ++ rest) =
    readTokens (deliver value enclosing) rest

theorem reads_items {item : Json} {others : List Json}
    (each : ∀ part ∈ item :: others, Reads part) (seen : List Json) (enclosing : List Opened)
    (mayClose : Bool) (rest : List Token) :
    readTokens (.value (.array seen :: enclosing) mayClose)
        (itemTokens (item :: others) ++ .closeArray :: rest) =
      readTokens (deliver (.array (seen.reverse ++ item :: others)) enclosing) rest := by
  have first := each item (.head _) (.array seen :: enclosing) mayClose
  induction others generalizing item seen mayClose with
  | nil =>
    refine (first (.closeArray :: rest)).trans ?_
    rw [deliver, readTokens, readToken, List.reverse_cons]
  | cons next others ih =>
    have later := (List.forall_mem_cons.mp each).2
    have others := ih later (item :: seen) false (later next (.head _) _ false)
    rw [List.reverse_cons, List.append_assoc, List.singleton_append] at others
    refine Eq.trans ?_ others
    rw [itemTokens, List.append_assoc, first]
    · rfl
    · exact List.cons_ne_nil _ _

theorem reads_members {member : Option String × Json} {others : List (Option String × Json)}
    (each : ∀ part ∈ member :: others, Reads part.2) (seen : List (Option String × Json))
    (enclosing : List Opened) (mayClose : Bool) (rest : List Token) :
    readTokens (.key seen enclosing mayClose)
        (memberTokens (member :: others) ++ .closeObject :: rest) =
      readTokens (deliver (.object (seen.reverse ++ member :: others)) enclosing) rest := by
  -- The key and the colon are read first, and then the value joins the members.
  have first := each member (.head _) (.object seen member.1 :: enclosing) false
  induction others generalizing member seen mayClose with
  | nil =>
    refine (first (.closeObject :: rest)).trans ?_
    rw [deliver, readTokens, readToken, List.reverse_cons]
  | cons next others ih =>
    have later := (List.forall_mem_cons.mp each).2
    have others := ih later (member :: seen) false (later next (.head _) _ false)
    rw [List.reverse_cons, List.append_assoc, List.singleton_append] at others
    refine Eq.trans ?_ others
    rw [memberTokens, List.cons_append, List.cons_append, List.append_assoc]
    · exact first _
    · exact List.cons_ne_nil _ _

theorem Textual.reads {value : Json} (textual : value.Textual) : Reads value := by
  induction textual with
  | string text => exact fun _ _ _ => rfl
  | @array items _ ih =>
    intro enclosing mayClose rest
    cases items with
    | nil => rfl
    | cons item others =>
      rw [tokens, List.cons_append, List.append_assoc]
      exact reads_items ih [] enclosing true rest
  | @object members _ ih =>
    intro enclosing mayClose rest
    cases members with
    | nil => rfl
    | cons member others =>
      rw [tokens, List.cons_append, List.append_assoc]
      exact reads_members ih [] enclosing true rest

/-! ### Reading a written value -/

theorem Textual.readTokens_tokens {value : Json} (textual : value.Textual) :
    readTokens (.value [] false) value.tokens = some value := by
  have read := textual.reads [] false []
  rwa [List.append_nil] at read

theorem Textual.read?_compact {value : Json} (textual : value.Textual) :
    read? value.compact = some value := by
  rw [read?, textual.writes_compact.tokens?_eq, Option.bind_some, textual.readTokens_tokens]

theorem Textual.read?_pretty {value : Json} (textual : value.Textual) (level : Nat) :
    read? (value.pretty level) = some value := by
  rw [read?, (textual.writes_pretty level).tokens?_eq, Option.bind_some, textual.readTokens_tokens]

end PackageAudit.Json
