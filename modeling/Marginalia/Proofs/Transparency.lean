import Marginalia.Proofs.TextForm

/-!
# Transparent line endings

Which line ending a text uses makes no difference to what is in it. With a
carriage return put in before each line feed, a text without carriage returns is
the same document, written with CR LF. Annotation reads the rows of both
documents and never their endings, so it commutes with the change.

## Results

* `Text.withReturns`                 — a text with CR LF in the place of LF.
* `Document.ofText_withReturns`      — its document has the same rows.
* `Document.annotate_withEnding`     — annotation does the same whatever the ending is.
* `Document.toText_withEnding`       — a document written with CR LF in the place of LF.
* `carryComments_withReturns`        — comments are carried over whatever the endings are.
-/

namespace Marginalia

namespace Text

-- ---------------------------------------------------------------------------
-- Carriage returns before line feeds
-- ---------------------------------------------------------------------------

/-- The text with CR LF in the place of each LF. -/
def withReturns (t : Text) : Text :=
  t.flatMap fun c => if c = '\n' then ['\r', '\n'] else [c]

theorem withReturns_append (upper lower : Text) :
    withReturns (upper ++ lower) = withReturns upper ++ withReturns lower :=
  List.flatMap_append

theorem withReturns_cons_feed (rest : Text) :
    withReturns ('\n' :: rest) = '\r' :: '\n' :: withReturns rest := by
  simp [withReturns]

theorem withReturns_cons_of_ne {c : Char} (hc : c ≠ '\n') (rest : Text) :
    withReturns (c :: rest) = c :: withReturns rest := by
  simp [withReturns, hc]

theorem withReturns_of_not_mem {t : Text} (hFeed : '\n' ∉ t) : withReturns t = t := by
  induction t with
  | nil => rfl
  | cons c rest ih =>
    rw [withReturns_cons_of_ne (List.ne_of_not_mem_cons hFeed).symm,
      ih (List.not_mem_of_not_mem_cons hFeed)]

theorem withReturns_eq_nil_iff (t : Text) : withReturns t = [] ↔ t = [] := by
  cases t with
  | nil => simp [withReturns]
  | cons c rest =>
    by_cases hc : c = '\n'
    · simp [hc, withReturns_cons_feed]
    · simp [withReturns_cons_of_ne hc]

theorem feed_mem_withReturns {t : Text} (hFeed : '\n' ∈ t) : '\n' ∈ withReturns t :=
  List.mem_flatMap.mpr ⟨'\n', hFeed, by simp⟩

theorem everyFeedFollowsReturn_withReturns (t : Text) (afterReturn : Bool) :
    LineEnding.everyFeedFollowsReturn afterReturn (withReturns t) = true := by
  induction t generalizing afterReturn with
  | nil => rfl
  | cons c rest ih =>
    by_cases hc : c = '\n'
    · rw [hc, withReturns_cons_feed]
      simp [LineEnding.everyFeedFollowsReturn, ih]
    · rw [withReturns_cons_of_ne hc]
      simp [LineEnding.everyFeedFollowsReturn, ih, hc]

-- ---------------------------------------------------------------------------
-- The same pieces
-- ---------------------------------------------------------------------------

theorem splitOnPair_cons_of_ne {a b c : Char} (hc : c ≠ a) (t : Text) :
    splitOnPair a b (c :: t) = consFirst c (splitOnPair a b t) := by
  cases t with
  | nil => rfl
  | cons d rest => rw [splitOnPair, if_neg (fun hPair => hc hPair.1)]

/-- Without other carriage returns, the pieces between the pairs are those
between the line feeds. -/
theorem splitOnPair_withReturns {t : Text} (hReturn : '\r' ∉ t) :
    splitOnPair '\r' '\n' (withReturns t) = t.splitOn '\n' := by
  induction t with
  | nil => rfl
  | cons c rest ih =>
    have hc : c ≠ '\r' := (List.ne_of_not_mem_cons hReturn).symm
    have hRest := ih (List.not_mem_of_not_mem_cons hReturn)
    rw [List.splitOn_cons_eq_if_modifyHead]
    by_cases hFeed : c = '\n'
    · rw [hFeed, withReturns_cons_feed, splitOnPair, if_pos ⟨rfl, rfl⟩, hRest]
      rfl
    · rw [withReturns_cons_of_ne hFeed, splitOnPair_cons_of_ne hc, hRest,
        if_neg (by simpa using hFeed)]
      cases hPieces : rest.splitOn '\n' with
      | nil =>
        rw [← hRest] at hPieces
        exact absurd hPieces (splitOnPair_ne_nil _ _ _)
      | cons first pieces => rfl

end Text

namespace LineEnding

open Text

theorem everyFeedFollowsReturn_of_no_return {t : Text} (hReturn : '\r' ∉ t) (hFeed : '\n' ∈ t) :
    everyFeedFollowsReturn false t = false := by
  induction t with
  | nil => cases hFeed
  | cons c rest ih =>
    have hc : c ≠ '\r' := (List.ne_of_not_mem_cons hReturn).symm
    rw [everyFeedFollowsReturn]
    rcases List.mem_cons.mp hFeed with rfl | hFeed
    · rfl
    · have hRest := ih (List.not_mem_of_not_mem_cons hReturn) hFeed
      rw [beq_eq_false_iff_ne.mpr hc, hRest, Bool.and_false]

theorem ofText_of_no_return {t : Text} (hReturn : '\r' ∉ t) : ofText t = lf := by
  cases hEnding : ofText t with
  | lf => rfl
  | crLf =>
    obtain ⟨hFeed, hFollows⟩ := (ofText_eq_crLf_iff t).mp hEnding
    rw [everyFeedFollowsReturn_of_no_return hReturn hFeed] at hFollows
    cases hFollows

theorem ofText_withReturns {t : Text} (hFeed : '\n' ∈ t) : ofText t.withReturns = crLf :=
  (ofText_eq_crLf_iff _).mpr
    ⟨feed_mem_withReturns hFeed, everyFeedFollowsReturn_withReturns t false⟩

/-- The line ending at the very end is replaced like every other. -/
theorem dropFinal?_withReturns (t : Text) :
    crLf.dropFinal? t.withReturns = (lf.dropFinal? t).map withReturns := by
  rcases List.eq_nil_or_concat t with rfl | ⟨front, c, rfl⟩
  · rfl
  · rw [List.concat_eq_append, withReturns_append]
    by_cases hc : c = '\n'
    · have hLf : lf.dropFinal? (front ++ [c]) = some front := by
        rw [dropFinal?_eq_some_iff, hc]
        rfl
      rw [hLf, Option.map_some, dropFinal?_eq_some_iff, hc]
      rfl
    · have hLf : lf.dropFinal? (front ++ [c]) = none := by
        rw [dropFinal?_eq_none_iff]
        rintro ⟨body, hBody⟩
        obtain ⟨-, hLast⟩ := List.append_inj' hBody rfl
        exact hc (List.singleton_inj.mp hLast).symm
      rw [hLf, Option.map_none, dropFinal?_eq_none_iff, withReturns_cons_of_ne hc]
      rintro ⟨body, hBody⟩
      have hLast := congrArg List.getLast? hBody
      rw [show body ++ crLf.chars = (body ++ ['\r']) ++ ['\n'] by simp [chars],
        List.getLast?_concat, List.getLast?_append] at hLast
      exact hc (Option.some.inj hLast).symm

end LineEnding

namespace Document

-- ---------------------------------------------------------------------------
-- Reading
-- ---------------------------------------------------------------------------

/-- The document with another line ending. -/
def withEnding (d : Document) (ending : LineEnding) : Document :=
  { d with ending }

theorem rowsOf_withReturns {body : Text} (hReturn : '\r' ∉ body) :
    rowsOf .crLf body.withReturns = rowsOf .lf body := by
  rw [rowsOf, rowsOf]
  by_cases hEmpty : body = []
  · rw [hEmpty]
    rfl
  · have hMore : body.withReturns ≠ [] := fun h => hEmpty ((Text.withReturns_eq_nil_iff body).mp h)
    rw [if_neg (by simpa using hMore), if_neg (by simpa using hEmpty)]
    exact Text.splitOnPair_withReturns hReturn

/-- **The same document.** A text without carriage returns has the same rows with
CR LF in the place of LF. -/
theorem ofText_withReturns {t : Text} (hReturn : '\r' ∉ t) (hFeed : '\n' ∈ t) (levelWidth : Nat) :
    ofText levelWidth t.withReturns = (ofText levelWidth t).withEnding .crLf := by
  simp only [ofText, LineEnding.ofText_of_no_return hReturn, LineEnding.ofText_withReturns hFeed]
  rw [LineEnding.dropFinal?_withReturns]
  cases hFinal : LineEnding.lf.dropFinal? t with
  | none =>
    rw [Option.map_none, rowsOf_withReturns hReturn]
    rfl
  | some body =>
    have hBody : '\r' ∉ body := by
      rw [LineEnding.dropFinal?_eq_some_iff.mp hFinal] at hReturn
      exact fun h => hReturn (List.mem_append_left _ h)
    simp only [Option.map_some, rowsOf_withReturns hBody]
    rfl

theorem comments_withEnding (d : Document) (ending : LineEnding) :
    (d.withEnding ending).comments = d.comments :=
  rfl

theorem comments_withReturns {t : Text} (hReturn : '\r' ∉ t) (levelWidth : Nat) :
    (ofText levelWidth t.withReturns).comments = (ofText levelWidth t).comments := by
  by_cases hFeed : '\n' ∈ t
  · rw [ofText_withReturns hReturn hFeed, comments_withEnding]
  · rw [Text.withReturns_of_not_mem hFeed]

end Document

-- ---------------------------------------------------------------------------
-- Annotation
-- ---------------------------------------------------------------------------

namespace Progress

/-- The same progress in a document with another line ending. -/
def withEnding (progress : Progress) (ending : LineEnding) : Progress :=
  { progress with document := progress.document.withEnding ending }

theorem write_withEnding (progress : Progress) (ending : LineEnding) (entry : Nat × Comment) :
    (progress.withEnding ending).write entry = (progress.write entry).withEnding ending := by
  have hCarrier : (progress.withEnding ending).carrier? entry.2 = progress.carrier? entry.2 := rfl
  rw [write, write, hCarrier]
  cases progress.carrier? entry.2 <;> rfl

theorem insert_withEnding (entry : Nat × Comment) (progress : Progress) (ending : LineEnding) :
    insert entry (progress.withEnding ending) = (insert entry progress).withEnding ending := by
  have hLine : (progress.withEnding ending).insertionLine? entry.2
      = progress.insertionLine? entry.2 := rfl
  rw [insert, insert, hLine]
  cases progress.insertionLine? entry.2 <;> rfl

theorem complete_withEnding (d : Document) (ending : LineEnding) (comments : Collection) :
    complete (d.withEnding ending) comments = (complete d comments).withEnding ending := by
  have hWrites : writeAll (d.withEnding ending) comments
      = (writeAll d comments).withEnding ending := by
    show comments.inlineEntries.foldl write (withEnding { document := d } ending) = _
    exact List.foldl_hom (withEnding · ending) fun progress entry =>
      write_withEnding progress ending entry
  rw [complete, complete, hWrites]
  exact List.foldr_hom (withEnding · ending) fun entry progress =>
    insert_withEnding entry progress ending

end Progress

namespace Document

/-- Annotation reads no line ending. -/
theorem annotate_withEnding (d : Document) (ending : LineEnding) (comments : Collection) :
    ((d.withEnding ending).annotate comments).document
      = (d.annotate comments).document.withEnding ending :=
  congrArg Progress.document (Progress.complete_withEnding d ending comments)

-- ---------------------------------------------------------------------------
-- Writing
-- ---------------------------------------------------------------------------

theorem withReturns_join {rows : List Text} (hRows : ∀ row ∈ rows, '\n' ∉ row) :
    (LineEnding.lf.join rows).withReturns = LineEnding.crLf.join rows := by
  induction rows with
  | nil => rfl
  | cons row rest ih =>
    have hRow : row.withReturns = row := Text.withReturns_of_not_mem (hRows row List.mem_cons_self)
    cases rest with
    | nil => simpa [LineEnding.join] using hRow
    | cons next more =>
      have hRest := ih fun other hOther => hRows other (List.mem_cons_of_mem _ hOther)
      simp only [LineEnding.join] at hRest ⊢
      rw [List.intercalate_cons_cons, List.intercalate_cons_cons, Text.withReturns_append,
        Text.withReturns_append, hRow, hRest]
      rfl

/-- Writing with CR LF puts a carriage return before each line feed. -/
theorem toText_withEnding {d : Document} (hEnding : d.ending = .lf) (hRows : d.OneLined) :
    (d.withEnding .crLf).toText = d.toText.withReturns := by
  rw [toText, toText, hEnding, Text.withReturns_append, withReturns_join hRows]
  cases hLast : d.endsLast with
  | false => simp [withEnding, hLast, Text.withReturns]
  | true => simp [withEnding, hLast, Text.withReturns, LineEnding.chars]

end Document

/-- **Line endings are transparent.** A source without carriage returns gives the
same result with CR LF in the place of LF, whatever the target is. If the target
has line feeds and no carriage returns, it may be changed in the same way, and
the result is changed with it. -/
theorem carryComments_withReturns (levelWidth : Nat) {source : Text} (hSource : '\r' ∉ source)
    (target : Text) :
    carryComments levelWidth source.withReturns target = carryComments levelWidth source target ∧
    ('\r' ∉ target → '\n' ∈ target →
      carryComments levelWidth source.withReturns target.withReturns
        = (carryComments levelWidth source target).withReturns) := by
  have hComments := Document.comments_withReturns hSource levelWidth
  refine ⟨by rw [carryComments, carryComments, hComments], fun hReturn hFeed => ?_⟩
  have hEnding : ((Document.ofText levelWidth target).annotate
      (Document.ofText levelWidth source).comments).document.ending = .lf := by
    rw [Document.ending_annotate, Document.ending_ofText, LineEnding.ofText_of_no_return hReturn]
  have hRows := Document.oneLined_annotate (Document.oneLined_ofText levelWidth target)
    (Document.oneLined_ofText levelWidth source)
  rw [carryComments, carryComments, hComments, Document.ofText_withReturns hReturn hFeed,
    Document.annotate_withEnding]
  exact Document.toText_withEnding hEnding hRows

/-- A blank row and an end of the document in the source, and a target without a
line ending at its end. -/
theorem carryComments_withReturns_blank :
    '\r' ∉ "# x\n\na: 1 # y\n# z".toList ∧
    carryComments 4 "# x\r\n\r\na: 1 # y\r\n# z".toList "b: 2\r\na: 1".toList
      = "b: 2\r\n# x\r\n\r\na: 1 # y\r\n# z".toList := by
  have hSource : '\r' ∉ "# x\n\na: 1 # y\n# z".toList := by decide
  have hTarget : '\r' ∉ "b: 2\na: 1".toList ∧ '\n' ∈ "b: 2\na: 1".toList := by decide
  exact ⟨hSource, (carryComments_withReturns 4 hSource "b: 2\na: 1".toList).2 hTarget.1 hTarget.2⟩

end Marginalia
