import Marginalia.Proofs.DataKept
import Marginalia.Proofs.Regeneration
import Mathlib.Data.Set.Function

/-!
# Reading comments back

The comments that were put into a document can be taken from it again. Where no
path occurs twice, what a document says at one place is one block and at most
one trailer, so the comments that rest there are told, in their order, by the
texts that the document has at that place. An annotated document has the texts
of the source at all places that it has, so each comment placed in it is read
back as it was.

Numbers change on the way: a comment corresponds to the one that has the same
position among those that rest on the same place.

## Results

* `Comment.remark`, `Document.remarksAt` — what comments say, whatever their numbers; by places.
* `Document.map_remark_comments`         — the comments at a place, told by its texts.
* `Catalogue.counterpart`                — matching the comments of two documents place by place.
* `comments_annotate_bijOn`              — each comment placed corresponds to one that is read back.
-/

namespace Marginalia

-- ---------------------------------------------------------------------------
-- Remarks
-- ---------------------------------------------------------------------------

/-- What a comment says and how: its form, its body, and the text of its row if
it has one to itself. -/
structure Remark where
  form : CommentForm
  body : Text
  row? : Option Text
  deriving DecidableEq, Repr

def Comment.remark (comment : Comment) : Remark where
  form := comment.form
  body := comment.body
  row? := if comment.isInline then none else some comment.line.text

theorem Comment.remark_eq_iff {comment other : Comment} :
    other.remark = comment.remark ↔ other.form = comment.form ∧ other.body = comment.body ∧
      (comment.isInline = false → other.line.text = comment.line.text) := by
  rw [remark, remark, Remark.mk.injEq]
  apply and_congr_right
  intro hForm
  apply and_congr_right
  intro _
  have hInline : other.isInline = comment.isInline := by rw [isInline, hForm, isInline]
  rw [hInline]
  cases comment.isInline <;> simp

/-- What the comment of a row with this text says. -/
def Text.remark? (text : Text) : Option Remark :=
  (Row.read 0 text).comment?.map Comment.remark

/-- What an inline comment says that was written as this trailer. -/
def Remark.ofTrailer? : Text → Option Remark
  | _ :: _ :: body => some { form := .inline, body, row? := none }
  | _ => none

theorem Text.remark?_eq_read (number : Nat) (text : Text) :
    text.remark? = (Row.read number text).comment?.map Comment.remark := by
  rw [remark?, Row.read, Row.read]
  cases text.form <;> rfl

theorem Row.ReadAt.remark?_eq {number : Nat} {row : Row} (hRead : row.ReadAt number) :
    row.line.text.remark? = row.comment?.map Comment.remark := by
  have hReads := hRead.reads
  generalize row.line.text = text at hReads ⊢
  rw [hReads, Text.remark?_eq_read number, Row.read]
  cases text.form <;> rfl

/-- A row with data says what its trailer says. -/
theorem Text.remark?_of_hasData {text : Text} (hData : (Row.read 0 text).hasData) :
    text.remark? = Remark.ofTrailer? text.trailer := by
  rw [Row.hasData, Row.dataLine?_read] at hData
  rw [remark?, trailer, Row.read]
  cases hForm : text.form <;>
    simp_all [Row.comment?, Remark.ofTrailer?, Comment.remark, Comment.isInline]

/-- A row without data is a comment and says something. -/
theorem Text.exists_remark?_of_not_hasData {text : Text}
    (hData : (Row.read 0 text).hasData = false) :
    ∃ remark, text.remark? = some remark := by
  rw [Row.hasData, Row.dataLine?_read] at hData
  rw [remark?, Row.read]
  cases hForm : text.form <;> simp_all [Row.comment?]

-- ---------------------------------------------------------------------------
-- Remarks by their places
-- ---------------------------------------------------------------------------

/-- What the comments among some rows say, each with the path of the first row
with data at or below it. -/
def remarksFrom : List (Text × Option Path) → List (Option Path × Remark)
  | [] => []
  | row :: rest =>
    (row.1.remark?.toList.map fun remark => ((Block.top (row :: rest)).anchor?, remark))
      ++ remarksFrom rest

/-- The comments among rows, with the places that they rest on. By induction on
the rows; the numbers only tell how far down the rows are looked at. -/
theorem Document.map_commentsFrom {k : Nat} {rows : List Row} (hRead : Row.ReadFrom k rows)
    {place : Nat → Option Path}
    (hPlace : ∀ i, place (k + i) = ((rows.map Row.pathed).drop i).findSome? (·.2)) :
    (commentsFrom k rows).map (fun entry => (place entry.1, entry.2.remark))
      = remarksFrom (rows.map Row.pathed) := by
  induction rows generalizing k with
  | nil => rfl
  | cons row rest ih =>
    have hRest := ih hRead.tail fun i => by
      rw [show k + 1 + i = k + (i + 1) by omega, hPlace]
      rfl
    have hHead : place k = (Block.top ((row :: rest).map Row.pathed)).anchor? := hPlace 0
    have hRemark : row.pathed.1.remark? = row.comment?.map Comment.remark := hRead.head.remark?_eq
    rw [List.map_cons, remarksFrom, ← List.map_cons, ← hHead, hRemark, ← hRest, commentsFrom]
    cases row.comment? <;> rfl

/-- Below the top block there is no other one at the same place. -/
theorem Block.rowsAt_below_eq_nil {rows : List (Text × Option Path)}
    (hDistinct : (rows.filterMap (·.2)).Nodup) :
    rowsAt (below rows) (top rows).anchor? = [] := by
  induction rows with
  | nil => rfl
  | cons row rest ih =>
    obtain ⟨text, p?⟩ := row
    cases p? with
    | none => exact ih hDistinct
    | some p => exact rowsAt_eq_nil (List.nodup_cons.mp hDistinct).1

/-- The trailers of the rows with a path among some rows; `Document.trailersAt`
has them for the rows of a document. -/
def trailersIn (rows : List (Text × Option Path)) (p : Path) : Text :=
  (rows.filter (·.2 = some p)).flatMap fun row => row.1.trailer

theorem trailersIn_cons_of_ne {row : Text × Option Path} {p : Path} (hPath : row.2 ≠ some p)
    (rest : List (Text × Option Path)) : trailersIn (row :: rest) p = trailersIn rest p := by
  rw [trailersIn, List.filter_cons_of_neg (by simpa using hPath), trailersIn]

theorem trailersIn_cons_self (text : Text) {p : Path} {rest : List (Text × Option Path)}
    (hNew : p ∉ rest.filterMap (·.2)) : trailersIn ((text, some p) :: rest) p = text.trailer := by
  rw [trailersIn, List.filter_cons_of_pos (by simp), filter_path_eq_nil hNew,
    List.flatMap_singleton]

/-- No comment rests on a path that no row has. -/
theorem filter_remarksFrom_eq_nil {rows : List (Text × Option Path)} {p : Path}
    (hMissing : p ∉ rows.filterMap (·.2)) : (remarksFrom rows).filter (·.1 = some p) = [] := by
  induction rows with
  | nil => rfl
  | cons row rest ih =>
    have hRest : p ∉ rest.filterMap (·.2) := by
      intro hMem
      obtain ⟨other, hOther, hPath⟩ := List.mem_filterMap.mp hMem
      exact hMissing (List.mem_filterMap.mpr ⟨other, List.mem_cons_of_mem row hOther, hPath⟩)
    have hAnchor : (Block.top (row :: rest)).anchor? ≠ some p := by
      intro hAnchor
      exact hMissing (List.mem_filterMap.mpr (List.exists_of_findSome?_eq_some hAnchor))
    rw [remarksFrom, List.filter_append, ih hRest, List.append_nil, List.filter_eq_nil_iff]
    intro entry hEntry
    obtain ⟨remark, -, rfl⟩ := List.mem_map.mp hEntry
    simpa using hAnchor

/-- What the comments of one place say is told by the texts at that place: those of
its block, and then its trailer. -/
def ToldAt (rows : List (Text × Option Path)) (a : Option Path) : Prop :=
  ((remarksFrom rows).filter (·.1 = a)).map (·.2)
    = (Block.rowsAt (Block.top rows :: Block.below rows) a).filterMap Text.remark?
      ++ (a.bind fun p => Remark.ofTrailer? (trailersIn rows p)).toList

/-- One row without data more: it joins the block below it, which is the only one at its
place. -/
theorem ToldAt.cons_none {text : Text} {rest : List (Text × Option Path)} {a : Option Path}
    (hRest : ToldAt rest a) (hDistinct : (rest.filterMap (·.2)).Nodup)
    (hData : (Row.read 0 text).hasData = false) : ToldAt ((text, none) :: rest) a := by
  have hTrailers : ∀ p, trailersIn ((text, none) :: rest) p = trailersIn rest p :=
    fun p => trailersIn_cons_of_ne (by simp) rest
  obtain ⟨remark, hRemark⟩ := Text.exists_remark?_of_not_hasData hData
  have hSplit : remarksFrom ((text, none) :: rest)
      = ((Block.top rest).anchor?, remark) :: remarksFrom rest := by
    rw [remarksFrom, hRemark]
    rfl
  rw [ToldAt] at hRest
  rw [ToldAt, hSplit, Block.top_cons_none, Block.below]
  simp only [hTrailers]
  by_cases hAnchor : (Block.top rest).anchor? = a
  · subst hAnchor
    have hOnly : Block.rowsAt (Block.below rest) (Block.top rest).anchor? = [] :=
      Block.rowsAt_below_eq_nil hDistinct
    have hBlock := Block.rowsAt_cons_self (Block.top rest).rows (Block.top rest).anchor?
      (Block.below rest)
    rw [hOnly, List.nil_append] at hBlock
    rw [hBlock] at hRest
    rw [Block.rowsAt_cons_self, hOnly, List.nil_append, List.filter_cons_of_pos (by simp),
      List.map_cons, hRest, List.filterMap_cons_some hRemark, List.cons_append]
  · have hBlock := Block.rowsAt_cons_of_ne hAnchor (Block.top rest).rows (Block.below rest)
    rw [hBlock] at hRest
    rw [Block.rowsAt_cons_of_ne hAnchor, List.filter_cons_of_neg (by simpa using hAnchor), hRest]

/-- One row with data more: its trailer is all there is at its place. -/
theorem ToldAt.cons_some {text : Text} {p : Path} {rest : List (Text × Option Path)} {a : Option Path}
    (hRest : ToldAt rest a) (hNew : p ∉ rest.filterMap (·.2)) (hData : (Row.read 0 text).hasData = true) :
    ToldAt ((text, some p) :: rest) a := by
  rw [ToldAt] at hRest
  rw [ToldAt, remarksFrom, Text.remark?_of_hasData hData, Block.top_cons_some, Block.below,
    List.filter_append, List.map_append]
  by_cases hPath : some p = a
  · subst hPath
    rw [filter_remarksFrom_eq_nil hNew, Block.rowsAt_cons_self, Block.rowsAt_eq_nil hNew,
      Option.bind_some, trailersIn_cons_self text hNew]
    cases Remark.ofTrailer? text.trailer <;> simp
  · have hTrailers : (a.bind fun q => Remark.ofTrailer? (trailersIn ((text, some p) :: rest) q))
        = a.bind fun q => Remark.ofTrailer? (trailersIn rest q) := by
      refine Option.bind_congr fun q hq => ?_
      rw [trailersIn_cons_of_ne (fun h => hPath (h.trans hq.symm))]
    have hNone : (((Remark.ofTrailer? text.trailer).toList.map fun remark => (some p, remark)).filter
        (·.1 = a)) = [] := by
      rw [List.filter_eq_nil_iff]
      intro entry hEntry
      obtain ⟨remark, -, rfl⟩ := List.mem_map.mp hEntry
      simpa using hPath
    rw [hNone, List.map_nil, List.nil_append, hRest, Block.rowsAt_cons_of_ne hPath, hTrailers]

/-- **What the comments of one place say, told by its texts**, if no path occurs
twice. -/
theorem toldAt_of_distinct {rows : List (Text × Option Path)} (hDistinct : (rows.filterMap (·.2)).Nodup)
    (hData : ∀ row ∈ rows, row.2.isSome = (Row.read 0 row.1).hasData) (a : Option Path) :
    ToldAt rows a := by
  induction rows with
  | nil =>
    cases a <;>
      simp [ToldAt, remarksFrom, Block.top_nil, Block.below, Block.rowsAt, trailersIn,
        Remark.ofTrailer?]
  | cons row rest ih =>
    have hHead := hData row List.mem_cons_self
    have hTail := fun other hOther => hData other (List.mem_cons_of_mem row hOther)
    obtain ⟨text, p?⟩ := row
    cases p? with
    | none => exact (ih hDistinct hTail).cons_none hDistinct hHead.symm
    | some p =>
      obtain ⟨hNew, hDistinct⟩ := List.nodup_cons.mp hDistinct
      exact (ih hDistinct hTail).cons_some hNew hHead.symm

namespace Document

/-- What the comments say that rest on a path, or on the end of the document:
those of its block, and then its trailer. -/
def remarksAt (d : Document) (a : Option Path) : List Remark :=
  (d.blockRows a).filterMap Text.remark?
    ++ (a.bind fun p => Remark.ofTrailer? (d.trailersAt p)).toList

/-- What the comment of a row says. -/
def remarkOf? (d : Document) (n : Nat) : Option Remark :=
  (d.comments.get? n).map Comment.remark

/-- **The comments that rest on a place are told by its texts**, if no path
occurs twice. -/
theorem map_remark_comments {d : Document} (hDistinct : (d.pathTable.map (·.2)).Nodup)
    (a : Option Path) :
    (d.comments.numbers.filter (d.restsOn? · = a)).map d.remarkOf? = (d.remarksAt a).map some := by
  have hPlace : ∀ i, d.restsOn? (0 + i) = ((d.readRows.map Row.pathed).drop i).findSome? (·.2) := by
    intro i
    rw [Nat.zero_add, map_pathed_readRows, findSome?_drop_pathed]
  have hRemarks : d.comments.entries.map (fun entry => (d.restsOn? entry.1, entry.2.remark))
      = remarksFrom d.pathed := by
    rw [← map_pathed_readRows]
    exact map_commentsFrom d.readFrom_readRows hPlace
  have hFilter : ((d.comments.entries.filter (d.restsOn? ·.1 = a)).map fun entry => entry.2.remark)
      = d.remarksAt a := by
    rw [map_snd_pathTable] at hDistinct
    have hAt := toldAt_of_distinct hDistinct (fun row hRow => isSome_of_mem_pathed hRow) a
    rw [ToldAt, ← hRemarks, List.filter_map, List.map_map] at hAt
    exact hAt
  rw [Collection.numbers, List.filter_map, List.map_map, ← hFilter, List.map_map]
  apply List.map_congr_left
  intro entry hEntry
  have hGet : d.comments.get? entry.1 = some entry.2 :=
    Collection.get?_eq_some_iff.mpr (List.mem_filter.mp hEntry).1
  show (d.comments.get? entry.1).map Comment.remark = some entry.2.remark
  rw [hGet]
  rfl

end Document

-- ---------------------------------------------------------------------------
-- Place by place
-- ---------------------------------------------------------------------------

/-- Comments by their numbers: which there are, where each rests, and what it
says. -/
structure Catalogue where
  numbers : List Nat
  ascending : numbers.Pairwise (· < ·)
  place? : Nat → Option Path
  remark? : Nat → Option Remark

namespace Catalogue

/-- The comments that rest on a place, in their order. -/
def restingOn (c : Catalogue) (a : Option Path) : List Nat :=
  c.numbers.filter (c.place? · = a)

/-- The comments say the same at each place, in the same order. -/
def Agrees (c other : Catalogue) : Prop :=
  ∀ a, (c.restingOn a).map c.remark? = (other.restingOn a).map other.remark?

/-- The comment of another catalogue that has the same position at its place. -/
def counterpart (c other : Catalogue) (n : Nat) : Nat :=
  (other.restingOn (c.place? n)).getD ((c.restingOn (c.place? n)).idxOf n) 0

variable {c other : Catalogue}

theorem mem_restingOn_iff {a : Option Path} {n : Nat} :
    n ∈ c.restingOn a ↔ n ∈ c.numbers ∧ c.place? n = a := by
  rw [restingOn, List.mem_filter, decide_eq_true_eq]

theorem ascending_restingOn (c : Catalogue) (a : Option Path) : (c.restingOn a).Pairwise (· < ·) :=
  c.ascending.filter _

theorem nodup_restingOn (c : Catalogue) (a : Option Path) : (c.restingOn a).Nodup :=
  (c.ascending_restingOn a).imp Nat.ne_of_lt

theorem Agrees.length_eq (hAgrees : c.Agrees other) (a : Option Path) :
    (c.restingOn a).length = (other.restingOn a).length := by
  have hLength := congrArg List.length (hAgrees a)
  rwa [List.length_map, List.length_map] at hLength

/-- The counterpart has the same position. -/
theorem Agrees.getElem?_restingOn (hAgrees : c.Agrees other) {n : Nat} (hMem : n ∈ c.numbers) :
    (other.restingOn (c.place? n))[(c.restingOn (c.place? n)).idxOf n]?
      = some (c.counterpart other n) := by
  have hLt : (c.restingOn (c.place? n)).idxOf n < (other.restingOn (c.place? n)).length := by
    rw [← hAgrees.length_eq]
    exact List.idxOf_lt_length_of_mem (mem_restingOn_iff.mpr ⟨hMem, rfl⟩)
  rw [counterpart, List.getD_eq_getElem?_getD, List.getElem?_eq_getElem hLt, Option.getD_some]

theorem Agrees.counterpart_mem (hAgrees : c.Agrees other) {n : Nat} (hMem : n ∈ c.numbers) :
    c.counterpart other n ∈ other.numbers ∧ other.place? (c.counterpart other n) = c.place? n :=
  mem_restingOn_iff.mp (List.mem_of_getElem? (hAgrees.getElem?_restingOn hMem))

theorem Agrees.remark?_counterpart (hAgrees : c.Agrees other) {n : Nat} (hMem : n ∈ c.numbers) :
    other.remark? (c.counterpart other n) = c.remark? n := by
  have hOwn : (c.restingOn (c.place? n))[(c.restingOn (c.place? n)).idxOf n]? = some n := by
    rw [List.getElem?_eq_getElem (List.idxOf_lt_length_of_mem (mem_restingOn_iff.mpr ⟨hMem, rfl⟩)),
      List.getElem_idxOf]
  have hSame := congrArg (·[(c.restingOn (c.place? n)).idxOf n]?) (hAgrees (c.place? n))
  simp only [List.getElem?_map, hOwn, hAgrees.getElem?_restingOn hMem, Option.map_some] at hSame
  exact (Option.some.inj hSame).symm

theorem Agrees.symm (hAgrees : c.Agrees other) : other.Agrees c :=
  fun a => (hAgrees a).symm

/-- The counterpart of the counterpart is the comment itself. -/
theorem Agrees.counterpart_counterpart (hAgrees : c.Agrees other) {n : Nat} (hMem : n ∈ c.numbers) :
    other.counterpart c (c.counterpart other n) = n := by
  have hPlace := (hAgrees.counterpart_mem hMem).2
  obtain ⟨hLt, hAt⟩ := List.getElem?_eq_some_iff.mp (hAgrees.getElem?_restingOn hMem)
  have hPosition : (other.restingOn (c.place? n)).idxOf (c.counterpart other n)
      = (c.restingOn (c.place? n)).idxOf n := by
    rw [← hAt]
    exact (other.nodup_restingOn _).idxOf_getElem _ hLt
  have hOwn : (c.restingOn (c.place? n)).idxOf n < (c.restingOn (c.place? n)).length :=
    List.idxOf_lt_length_of_mem (mem_restingOn_iff.mpr ⟨hMem, rfl⟩)
  rw [counterpart, hPlace, hPosition, List.getD_eq_getElem?_getD, List.getElem?_eq_getElem hOwn,
    Option.getD_some, List.getElem_idxOf]

/-- **Catalogues that agree correspond**, comment by comment. -/
theorem Agrees.bijOn (hAgrees : c.Agrees other) :
    Set.BijOn (c.counterpart other) {n | n ∈ c.numbers} {m | m ∈ other.numbers} := by
  have hInverse : Set.InvOn (other.counterpart c) (c.counterpart other)
      {n | n ∈ c.numbers} {m | m ∈ other.numbers} :=
    ⟨fun _ hn => hAgrees.counterpart_counterpart hn,
      fun _ hm => hAgrees.symm.counterpart_counterpart hm⟩
  exact hInverse.bijOn (fun _ hn => (hAgrees.counterpart_mem hn).1)
    fun _ hm => (hAgrees.symm.counterpart_mem hm).1

/-- The comments at one place are in the order of their positions. -/
theorem idxOf_lt_idxOf {a : Option Path} {n k : Nat} (hn : n ∈ c.restingOn a)
    (hk : k ∈ c.restingOn a) (hLt : n < k) : (c.restingOn a).idxOf n < (c.restingOn a).idxOf k := by
  by_contra hNot
  have hnLt := List.idxOf_lt_length_of_mem hn
  have hkLt := List.idxOf_lt_length_of_mem hk
  rcases Nat.lt_or_eq_of_le (Nat.not_lt.mp hNot) with hBefore | hSame
  · have hOrder := List.pairwise_iff_getElem.mp (c.ascending_restingOn a) _ _ hkLt hnLt hBefore
    rw [List.getElem_idxOf, List.getElem_idxOf] at hOrder
    omega
  · have hEq : k = n := (List.idxOf_inj hk).mp hSame
    omega

/-- Comments that rest on the same place keep their order. -/
theorem Agrees.counterpart_lt (hAgrees : c.Agrees other) {n k : Nat} (hn : n ∈ c.numbers)
    (hk : k ∈ c.numbers) (hPlace : c.place? n = c.place? k) (hLt : n < k) :
    c.counterpart other n < c.counterpart other k := by
  have hnAt := hAgrees.getElem?_restingOn hn
  have hkAt := hAgrees.getElem?_restingOn hk
  rw [hPlace] at hnAt
  obtain ⟨hnLt, hnEq⟩ := List.getElem?_eq_some_iff.mp hnAt
  obtain ⟨hkLt, hkEq⟩ := List.getElem?_eq_some_iff.mp hkAt
  have hPositions := idxOf_lt_idxOf (mem_restingOn_iff.mpr ⟨hn, hPlace⟩)
    (mem_restingOn_iff.mpr ⟨hk, rfl⟩) hLt
  rw [← hnEq, ← hkEq]
  exact List.pairwise_iff_getElem.mp (other.ascending_restingOn _) _ _ hnLt hkLt hPositions

end Catalogue

-- ---------------------------------------------------------------------------
-- The comments of an annotated document
-- ---------------------------------------------------------------------------

namespace Document

/-- The comments of a document that are not left out. -/
def catalogue (d : Document) (orphans : List Nat) : Catalogue where
  numbers := d.comments.numbers.filter (· ∉ orphans)
  ascending := d.comments.ascending_numbers.filter _
  place? := d.restsOn?
  remark? := d.remarkOf?

section Annotated

variable {source target : Document}
  (hBare : ∀ text ∈ target.rows, text.form = .data ∧ text.Tidy)

include hBare

/-- At a place that the target has, the annotated document says what the source
says there. -/
theorem remarksAt_annotate {a : Option Path} (hPlace : ¬ target.Lacks a) :
    (target.annotate source.comments).document.remarksAt a = source.remarksAt a := by
  cases a with
  | none => rw [remarksAt, remarksAt, blockRows_annotate_none hBare]; rfl
  | some p =>
    have hLine : target.lineOf? p ≠ none := fun hLine => hPlace ⟨p, rfl, hLine⟩
    rw [remarksAt, remarksAt, blockRows_annotate hBare, if_neg hLine, Option.bind_some,
      Option.bind_some, trailersAt_annotate hBare, if_neg hLine]

/-- At other places it says nothing. -/
theorem remarksAt_annotate_of_lacks {a : Option Path} (hPlace : target.Lacks a) :
    (target.annotate source.comments).document.remarksAt a = [] := by
  obtain ⟨p, rfl, hLine⟩ := hPlace
  rw [remarksAt, blockRows_annotate hBare, if_pos hLine, Option.bind_some,
    trailersAt_annotate hBare, if_pos hLine]
  rfl

end Annotated

section Kept

variable {source target : Document}
  (hTidy : ∀ text ∈ target.rows, text.form = .data → text.Tidy)

include hTidy

/-- All comments are left out that rest on a path that the target lacks. -/
theorem restingOn_catalogue_of_lacks {a : Option Path} (hPlace : target.Lacks a) :
    (source.catalogue (target.annotate source.comments).orphans).restingOn a = [] := by
  rw [List.eq_nil_iff_forall_not_mem]
  intro n hn
  obtain ⟨hMem, rfl⟩ := Catalogue.mem_restingOn_iff.mp hn
  obtain ⟨hNumber, hKept⟩ := List.mem_filter.mp hMem
  exact of_decide_eq_true hKept ((mem_orphans_annotate_iff_lacks hTidy).mpr ⟨hNumber, hPlace⟩)

/-- None is left out that rests on another place. -/
theorem restingOn_catalogue {a : Option Path} (hPlace : ¬ target.Lacks a) :
    (source.catalogue (target.annotate source.comments).orphans).restingOn a
      = source.comments.numbers.filter (source.restsOn? · = a) := by
  show (source.comments.numbers.filter _).filter _ = _
  rw [List.filter_filter]
  apply List.filter_congr
  intro n _
  by_cases hRests : source.restsOn? n = a
  · have hKept : n ∉ (target.annotate source.comments).orphans := by
      intro hOrphan
      have hLacks := ((mem_orphans_annotate_iff_lacks hTidy).mp hOrphan).2
      rw [hRests] at hLacks
      exact hPlace hLacks
    simp [catalogue, hRests, hKept]
  · simp [catalogue, hRests]

end Kept

/-- **What is placed is what is read back**, place by place. -/
theorem agrees_annotate {source target : Document}
    (hBare : ∀ text ∈ target.rows, text.form = .data ∧ text.Tidy)
    (hSource : (source.pathTable.map (·.2)).Nodup) (hTarget : (target.pathTable.map (·.2)).Nodup) :
    (source.catalogue (target.annotate source.comments).orphans).Agrees
      ((target.annotate source.comments).document.catalogue []) := by
  have hTidy : ∀ text ∈ target.rows, text.form = .data → text.Tidy :=
    fun text hText _ => (hBare text hText).2
  have hAnnotated : ((target.annotate source.comments).document.pathTable.map (·.2)).Nodup := by
    rw [(Decisions.made target source.comments).map_snd_pathTable_annotate hTidy
      source.allRead_comments]
    exact hTarget
  intro a
  have hBack : (((target.annotate source.comments).document.catalogue []).restingOn a).map
        (target.annotate source.comments).document.remarkOf?
      = ((target.annotate source.comments).document.remarksAt a).map some := by
    rw [← map_remark_comments hAnnotated]
    simp [Catalogue.restingOn, catalogue]
  refine Eq.trans ?_ hBack.symm
  show ((source.catalogue _).restingOn a).map source.remarkOf? = _
  by_cases hPlace : target.Lacks a
  · rw [restingOn_catalogue_of_lacks hTidy hPlace, remarksAt_annotate_of_lacks hBare hPlace]
    rfl
  · rw [restingOn_catalogue hTidy hPlace, map_remark_comments hSource,
      remarksAt_annotate hBare hPlace]

end Document

/-- **Comments are read back as they were put in.** Take a source and a target
without comments whose data is tidy, in neither of which a path occurs twice. The
comments of the source that are not left out correspond one to one to those of
the annotated document. Corresponding comments have the same form and body, the
same row if it is theirs alone, and rest on the same path, or both on the end of
the document. Those that rest on the same place, in particular those of one
block, keep their order. -/
theorem comments_annotate_bijOn {source target : Document}
    (hSource : (source.pathTable.map (·.2)).Nodup) (hTarget : (target.pathTable.map (·.2)).Nodup)
    (hBare : ∀ text ∈ target.rows, text.form = .data ∧ text.Tidy) :
    ∃ counterpart : Nat → Nat,
      Set.BijOn counterpart
        {n | n ∈ source.comments.numbers ∧ n ∉ (target.annotate source.comments).orphans}
        {m | m ∈ (target.annotate source.comments).document.comments.numbers} ∧
      (∀ n comment, source.comments.get? n = some comment →
        n ∉ (target.annotate source.comments).orphans →
        ∃ back place?,
          (target.annotate source.comments).document.comments.get? (counterpart n) = some back ∧
          back.form = comment.form ∧ back.body = comment.body ∧
          (comment.isInline = false → back.line.text = comment.line.text) ∧
          source.comments.RestsOn comment place? ∧
          (target.annotate source.comments).document.comments.RestsOn back place?) ∧
      ∀ n k comment other place?, source.comments.get? n = some comment →
        source.comments.get? k = some other →
        n ∉ (target.annotate source.comments).orphans →
        k ∉ (target.annotate source.comments).orphans →
        source.comments.RestsOn comment place? → source.comments.RestsOn other place? →
        n < k → counterpart n < counterpart k := by
  set orphans := (target.annotate source.comments).orphans with hOrphans
  set annotated := (target.annotate source.comments).document with hAnnotated
  have hAgrees : (source.catalogue orphans).Agrees (annotated.catalogue []) :=
    Document.agrees_annotate hBare hSource hTarget
  have hKept : ∀ n comment, source.comments.get? n = some comment → n ∉ orphans →
      n ∈ (source.catalogue orphans).numbers := by
    intro n comment hGet hOrphan
    have hNumber : n ∈ source.comments.numbers :=
      List.mem_map_of_mem (Collection.get?_eq_some_iff.mp hGet)
    exact List.mem_filter.mpr ⟨hNumber, decide_eq_true hOrphan⟩
  refine ⟨(source.catalogue orphans).counterpart (annotated.catalogue []), ?_, ?_, ?_⟩
  · have hBijOn := hAgrees.bijOn
    simpa [Document.catalogue] using hBijOn
  · intro n comment hGet hOrphan
    have hMem := hKept n comment hGet hOrphan
    obtain ⟨hBack, hPlace⟩ := hAgrees.counterpart_mem hMem
    obtain ⟨⟨m, back⟩, hEntry, hNumber⟩ := List.mem_map.mp (List.mem_filter.mp hBack).1
    obtain rfl : m = _ := hNumber
    have hFound := Collection.get?_eq_some_iff.mpr hEntry
    have hSame : annotated.remarkOf? _ = source.remarkOf? n := hAgrees.remark?_counterpart hMem
    rw [Document.remarkOf?, Document.remarkOf?, hFound, hGet] at hSame
    obtain ⟨hForm, hBody, hRow⟩ := Comment.remark_eq_iff.mp (Option.some.inj hSame)
    have hRests := Document.restsOn_of_mem_comments hEntry
    have hPlace : annotated.restsOn? _ = source.restsOn? n := hPlace
    rw [hPlace] at hRests
    exact ⟨back, source.restsOn? n, hFound, hForm, hBody, hRow,
      Document.restsOn_of_mem_comments (Collection.get?_eq_some_iff.mp hGet), hRests⟩
  · intro n k comment other place? hn hk hnKept hkKept hnRests hkRests hLt
    have hnEntry := Collection.get?_eq_some_iff.mp hn
    have hkEntry := Collection.get?_eq_some_iff.mp hk
    have hnPlace := (Document.restsOn_of_mem_comments hnEntry).unique hnRests
    have hkPlace := (Document.restsOn_of_mem_comments hkEntry).unique hkRests
    exact hAgrees.counterpart_lt (hKept n comment hn hnKept) (hKept k other hk hkKept)
      (hnPlace.trans hkPlace.symm) hLt

/-- A target in another order that lacks a row of the source: a comment and the
one above it are left out, the others change their numbers. -/
theorem comments_annotate_bijOn_reordered :
    ∃ source target : Document,
      source.rows = ["".toList, "# on a".toList, "a: 1 # one".toList, "".toList, "# on c".toList,
        "c: 2".toList, "b: # two".toList, "# end".toList] ∧
      target.rows = ["b: 3".toList, "a: 4".toList] ∧
      (source.pathTable.map (·.2)).Nodup ∧ (target.pathTable.map (·.2)).Nodup ∧
      (∀ text ∈ target.rows, text.form = .data ∧ text.Tidy) ∧
      (target.annotate source.comments).document.rows = ["b: 3 # two".toList, "".toList,
        "# on a".toList, "a: 4 # one".toList, "# end".toList] ∧
      ∃ counterpart : Nat → Nat,
        Set.BijOn counterpart {n | n ∈ source.comments.numbers ∧ n ∉ [3, 4]}
          {m | m ∈ (target.annotate source.comments).document.comments.numbers} ∧
        ∀ n comment, source.comments.get? n = some comment → n ∉ [3, 4] →
          ∃ back place?,
            (target.annotate source.comments).document.comments.get? (counterpart n) = some back ∧
            back.form = comment.form ∧ back.body = comment.body ∧
            (comment.isInline = false → back.line.text = comment.line.text) ∧
            source.comments.RestsOn comment place? ∧
            (target.annotate source.comments).document.comments.RestsOn back place? := by
  refine ⟨Document.ofRows 4 _, Document.ofRows 2 _, rfl, rfl, by decide, by decide, by decide,
    by decide, ?_⟩
  obtain ⟨counterpart, hBijOn, hSame, -⟩ := @comments_annotate_bijOn
    (Document.ofRows 4 ["".toList, "# on a".toList, "a: 1 # one".toList, "".toList, "# on c".toList,
      "c: 2".toList, "b: # two".toList, "# end".toList])
    (Document.ofRows 2 ["b: 3".toList, "a: 4".toList]) (by decide) (by decide) (by decide)
  have hOrphans : ((Document.ofRows 2 ["b: 3".toList, "a: 4".toList]).annotate (Document.ofRows 4
      ["".toList, "# on a".toList, "a: 1 # one".toList, "".toList, "# on c".toList, "c: 2".toList,
        "b: # two".toList, "# end".toList]).comments).orphans = [3, 4] := by
    rw [Document.orphans_annotate_eq_filter]
    decide
  rw [hOrphans] at hBijOn hSame
  exact ⟨counterpart, hBijOn, hSame⟩

end Marginalia
