import Marginalia.Listing

/-!
# Telling a listing from its JSON

Nothing of a listing is lost when it is printed as JSON. Each part that is printed
shows where it ends, a number by the comma behind it and a string by the first
quote that is not escaped. So what is printed can be cut off the front of a text in
one way only: strings and numbers first, then the entries one after the other.

## Results

* `Quoted.read?_escaped`          — a quoted text is read back up to its closing quote.
* `Listing.jsonObject_append_inj` — an entry can be told from what follows it.
* `Listing.json_injective`        — two listings with the same JSON are the same.
-/

namespace Marginalia

-- ---------------------------------------------------------------------------
-- Strings and numbers
-- ---------------------------------------------------------------------------

namespace Quoted

/-- The character that a letter behind a backslash stands for. -/
def ofLetter : Char → Char
  | 'b' => '\x08'
  | 't' => '\t'
  | 'n' => '\n'
  | 'f' => '\x0c'
  | 'r' => '\r'
  | letter => letter

def hexValue (c : Char) : Nat :=
  if c.toNat < 'a'.toNat then c.toNat - '0'.toNat else c.toNat - 'a'.toNat + 10

/-- The text up to the closing quote, without its escapes, and what follows. -/
def read? : Text → Option (Text × Text)
  | [] => none
  | '"' :: rest => some ([], rest)
  | '\\' :: 'u' :: _ :: _ :: high :: low :: rest =>
    (read? rest).map fun (t, more) => (Char.ofNat (16 * hexValue high + hexValue low) :: t, more)
  | '\\' :: letter :: rest => (read? rest).map fun (t, more) => (ofLetter letter :: t, more)
  | c :: rest => (read? rest).map fun (t, more) => (c :: t, more)

theorem hexValue_hexDigit {n : Nat} (hn : n < 16) : hexValue (hexDigit n) = n := by
  have hAll : ∀ n < 16, hexValue (hexDigit n) = n := by decide
  exact hAll n hn

theorem read?_escapeChar (c : Char) (rest : Text) :
    read? (escapeChar c ++ rest) = (read? rest).map fun (t, more) => (c :: t, more) := by
  by_cases hLetter : c = '"' ∨ c = '\\' ∨ c = '\x08' ∨ c = '\t' ∨ c = '\n' ∨ c = '\x0c' ∨ c = '\r'
  · rcases hLetter with rfl | rfl | rfl | rfl | rfl | rfl | rfl <;> rfl
  · simp only [not_or] at hLetter
    obtain ⟨hQuote, hSlash, hBackspace, hTab, hFeed, hPage, hReturn⟩ := hLetter
    rw [escapeChar, if_neg hQuote, if_neg hSlash, if_neg hBackspace, if_neg hTab, if_neg hFeed,
      if_neg hPage, if_neg hReturn]
    by_cases hControl : c.toNat < 0x20
    · rw [if_pos hControl]
      simp only [List.cons_append, List.nil_append, read?]
      rw [hexValue_hexDigit (by omega), hexValue_hexDigit (by omega), Nat.div_add_mod, Char.ofNat_toNat]
    · rw [if_neg hControl, List.singleton_append, read?]
      · exact hQuote
      · exact fun _ _ _ _ _ hc _ => hSlash hc
      · exact fun _ _ hc _ => hSlash hc

/-- **A quoted text is read back** up to its closing quote. -/
theorem read?_escaped (t rest : Text) : read? (t.flatMap escapeChar ++ '"' :: rest) = some (t, rest) := by
  induction t with
  | nil => rfl
  | cons c more ih => rw [List.flatMap_cons, List.append_assoc, read?_escapeChar, ih, Option.map_some]

theorem quote_append_inj {s t rest other : Text} (hSame : quote s ++ rest = quote t ++ other) :
    s = t ∧ rest = other := by
  simp only [quote, List.cons_append, List.append_assoc, List.nil_append, List.cons.injEq] at hSame
  have hRead := congrArg read? hSame.2
  rw [read?_escaped, read?_escaped] at hRead
  exact Prod.mk.inj (Option.some.inj hRead)

end Quoted

theorem CommentForm.name_injective {a b : CommentForm} (hSame : a.name = b.name) : a = b := by
  revert hSame
  cases a <;> cases b <;> decide

/-- A number can be told from what follows it behind a comma. -/
theorem decimal_append_inj {m n : Nat} {rest other : Text}
    (hSame : decimal m ++ ',' :: rest = decimal n ++ ',' :: other) : m = n ∧ rest = other := by
  have hDigits : ∀ (k : Nat) (more : Text),
      (decimal k ++ ',' :: more).takeWhile Char.isDigit = decimal k := by
    intro k more
    rw [List.takeWhile_append_of_pos fun c hc => isDigit_of_mem_decimal hc,
      List.takeWhile_cons_of_neg (by decide), List.append_nil]
  have hNumber := congrArg (List.takeWhile Char.isDigit) hSame
  rw [hDigits, hDigits] at hNumber
  rw [hNumber] at hSame
  have hValue := congrArg (Nat.ofDigitChars 10 · 0) hNumber
  simp only [decimal, Nat.ofDigitChars_ten_toDigits] at hValue
  exact ⟨hValue, (List.cons.inj (List.append_cancel_left hSame)).2⟩

namespace Listing

-- ---------------------------------------------------------------------------
-- Entries
-- ---------------------------------------------------------------------------

/-- An entry in JSON, as the texts between its parts and the parts. -/
theorem jsonObject_append (comment : ListedComment) (rest : Text) :
    jsonObject comment ++ rest =
      "  \x7b\n    \"line\": ".toList ++ (decimal comment.line ++ ',' ::
        ("\n    \"kind\": ".toList ++ (Quoted.quote comment.form.name ++
          (",\n    \"context\": ".toList ++ (Quoted.quote comment.anchor ++
            (",\n    \"text\": ".toList ++ (Quoted.quote comment.words ++
              ("\n  \x7d".toList ++ rest)))))))) := by
  -- `delta`, since to unfold by equations evaluates the texts in them, for seconds
  delta jsonObject jsonMember
  simp only [List.intercalate_cons_cons, List.intercalate_singleton, List.append_assoc]
  rfl

/-- **An entry can be told from what follows it.** -/
theorem jsonObject_append_inj {a b : ListedComment} {rest other : Text}
    (hSame : jsonObject a ++ rest = jsonObject b ++ other) : a = b ∧ rest = other := by
  rw [jsonObject_append, jsonObject_append] at hSame
  obtain ⟨hLine, hSame⟩ := decimal_append_inj (List.append_cancel_left hSame)
  obtain ⟨hForm, hSame⟩ := Quoted.quote_append_inj (List.append_cancel_left hSame)
  obtain ⟨hAnchor, hSame⟩ := Quoted.quote_append_inj (List.append_cancel_left hSame)
  obtain ⟨hWords, hSame⟩ := Quoted.quote_append_inj (List.append_cancel_left hSame)
  refine ⟨?_, List.append_cancel_left hSame⟩
  cases a
  cases b
  obtain rfl := CommentForm.name_injective hForm
  simp_all

-- ---------------------------------------------------------------------------
-- The array
-- ---------------------------------------------------------------------------

/-- The entries behind the first, each behind its comma. -/
def jsonBehind (comments : List ListedComment) : Text :=
  comments.flatMap fun comment => [',', '\n'] ++ jsonObject comment

theorem intercalate_jsonObject (comment : ListedComment) (rest : List ListedComment) :
    [',', '\n'].intercalate ((comment :: rest).map jsonObject) = jsonObject comment ++ jsonBehind rest := by
  induction rest generalizing comment with
  | nil => simp [jsonBehind]
  | cons next rest ih =>
    have hNext := ih next
    rw [List.map_cons] at hNext
    rw [List.map_cons, List.map_cons, List.intercalate_cons_cons, hNext, jsonBehind, jsonBehind,
      List.flatMap_cons, List.append_assoc, List.append_assoc]

theorem json_cons (comment : ListedComment) (rest : List ListedComment) :
    json (comment :: rest)
      = ['[', '\n'] ++ (jsonObject comment ++ (jsonBehind rest ++ ['\n', ']'])) := by
  rw [json, intercalate_jsonObject, if_neg (by simp), List.append_assoc, List.append_assoc]

theorem jsonBehind_injective {as bs : List ListedComment}
    (hSame : jsonBehind as ++ ['\n', ']'] = jsonBehind bs ++ ['\n', ']']) : as = bs := by
  induction as generalizing bs with
  | nil =>
    cases bs with
    | nil => rfl
    | cons b rest => simp [jsonBehind] at hSame
  | cons a rest ih =>
    cases bs with
    | nil => simp [jsonBehind] at hSame
    | cons b others =>
      rw [jsonBehind, jsonBehind, List.flatMap_cons, List.flatMap_cons] at hSame
      simp only [List.append_assoc] at hSame
      obtain ⟨rfl, hRest⟩ := jsonObject_append_inj (List.append_cancel_left hSame)
      rw [ih hRest]

/-- **A listing can be told from its JSON.** -/
theorem json_injective {as bs : List ListedComment} (hSame : json as = json bs) : as = bs := by
  cases as with
  | nil =>
    cases bs with
    | nil => rfl
    | cons b others => simp [json] at hSame
  | cons a rest =>
    cases bs with
    | nil => simp [json] at hSame
    | cons b others =>
      rw [json_cons, json_cons] at hSame
      obtain ⟨rfl, hRest⟩ := jsonObject_append_inj (List.append_cancel_left hSame)
      rw [jsonBehind_injective hRest]

end Listing

end Marginalia
