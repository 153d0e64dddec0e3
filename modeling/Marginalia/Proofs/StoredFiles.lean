import Marginalia.Store.System

/-!
# A store is a system of files

What is written over a file of a store moves no other file, since a name is
followed through directories alone: a file in the place of a file leaves the
directories as they are. So each name leads where it led before, and only the
place that is written to holds something else.

## Results

* `Store.locate?_put_file`, `Store.content?_put_file` — names and files after a file was put.
* `Store.fileSystem_lawful` — a store can be relied on as a system of files.
-/

namespace Marginalia

namespace Store

variable {store : Store} {name : Text} {place : Location} {content : FileContent}

-- ---------------------------------------------------------------------------
-- Putting a file
-- ---------------------------------------------------------------------------

theorem ne_nil_of_isDirectory_eq_false (hPlace : store.isDirectory place = false) : place ≠ [] := by
  rintro rfl
  cases hPlace

/-- A file in the place of a file, or of nothing, leaves the directories as they
are. -/
theorem isDirectory_put_file (hPlace : store.isDirectory place = false) (other : Location) :
    (store.put place (.file content)).isDirectory other = store.isDirectory other := by
  rw [isDirectory, node?_put store (ne_nil_of_isDirectory_eq_false hPlace)]
  split
  · next hSame =>
    rw [hSame, hPlace]
    rfl
  · rw [isDirectory]

theorem follow?_congr {changed : Store} (hSame : ∀ p, changed.isDirectory p = store.isDirectory p)
    (here : Location) (parts : List Text) : changed.follow? here parts = store.follow? here parts := by
  induction parts generalizing here with
  | nil => rfl
  | cons part rest ih =>
    rw [follow?, follow?, hSame]
    simp only [ih]

/-- Each name leads where it led before. -/
theorem locate?_put_file (hPlace : store.isDirectory place = false) (other : Text) :
    (store.put place (.file content)).locate? other = store.locate? other := by
  rw [locate?, locate?, follow?_congr (isDirectory_put_file hPlace)]
  rfl

theorem content?_put_file (hPlace : store.isDirectory place = false) (other : Location) :
    (store.put place (.file content)).content? other
      = if other = place then some content else store.content? other := by
  rw [content?, node?_put store (ne_nil_of_isDirectory_eq_false hPlace)]
  by_cases hSame : other = place
  · rw [if_pos hSame, if_pos hSame]
  · rw [if_neg hSame, if_neg hSame, content?]

-- ---------------------------------------------------------------------------
-- Reading and writing
-- ---------------------------------------------------------------------------

theorem file?_eq_some_iff :
    view.file? store name = some place
      ↔ store.locate? name = some place ∧ (store.content? place).isSome := by
  show (store.locate? name).filter _ = some place ↔ _
  rw [Option.filter_eq_some_iff]

theorem text?_eq_some_iff {t : Text} : content.text? = some t ↔ content = .text t := by
  cases content <;> simp [FileContent.text?]

/-- A text is read where the name leads to a file that holds it. -/
theorem exists_of_readText?_eq_some {t : Text} (hRead : store.readText? name = some t) :
    ∃ place, store.locate? name = some place ∧ store.content? place = some (.text t) := by
  unfold readText? at hRead
  split at hRead
  · next content hNode =>
    obtain ⟨place, hPlace, hFile⟩ := Option.bind_eq_some_iff.mp hNode
    refine ⟨place, hPlace, ?_⟩
    rw [content?, hFile, text?_eq_some_iff.mp hRead]
  · cases hRead

/-- What is written is put in the place that the name leads to, which is no
directory. -/
theorem exists_of_write?_eq_some {t : Text} {changed : Store} (hWrite : store.write? name t = some changed) :
    ∃ place, store.locate? name = some place ∧ store.isDirectory place = false ∧
      changed = store.put place (.file (.text t)) := by
  unfold write? at hWrite
  split at hWrite
  · cases hWrite
  · next place hPlace =>
    split at hWrite
    · cases hWrite
    · next hFree =>
      rw [Bool.or_eq_true, not_or, Bool.not_eq_true] at hFree
      exact ⟨place, hPlace, hFree.1, (Option.some.inj hWrite).symm⟩

/-- A system that was written to is the store with what was written. -/
theorem after?_write (store : Store) (name t : Text) :
    (fileSystem.write store name t).after? = store.write? name t := by
  rw [fileSystem]
  dsimp only
  split
  · next changed hWrite => rw [hWrite, Written.after?]
  · next hWrite => rw [hWrite, Written.after?]

/-- A file in the place of a file changes nothing else. -/
theorem keepsOthers_put_file (hPlace : store.isDirectory place = false)
    (hFile : (store.content? place).isSome) :
    view.KeepsOthers store (store.put place (.file content)) place where
  names other := by
    have hHolds : ∀ p, ((store.put place (.file content)).content? p).isSome = (store.content? p).isSome := by
      intro p
      rw [content?_put_file hPlace]
      split
      · next hSame => rw [hSame, hFile, Option.isSome_some]
      · rfl
    show ((store.put place (.file content)).locate? other).filter _ = (store.locate? other).filter _
    rw [locate?_put_file hPlace]
    simp only [hHolds]
  contents other hOther := (content?_put_file hPlace other).trans (if_neg hOther)

/-- **A store is a system of files that can be relied on.** -/
theorem fileSystem_lawful : fileSystem.Lawful view where
  read hRead := by
    obtain ⟨place, hPlace, hContent⟩ := exists_of_readText?_eq_some hRead
    exact ⟨place, file?_eq_some_iff.mpr ⟨hPlace, by rw [hContent]; rfl⟩, hContent⟩
  written {state name t after} hWrite := by
    have hChanged := after?_write state name t
    rw [hWrite] at hChanged
    obtain ⟨place, hPlace, hFree, rfl⟩ := exists_of_write?_eq_some hChanged.symm
    have hContent := (@content?_put_file _ _ (.text t) hFree place).trans (if_pos rfl)
    refine ⟨place, file?_eq_some_iff.mpr ⟨?_, ?_⟩, hContent⟩
    · rw [locate?_put_file hFree, hPlace]
    · rw [hContent, Option.isSome_some]
  others hFile hAfter := by
    obtain ⟨hLeads, hHolds⟩ := file?_eq_some_iff.mp hFile
    rw [after?_write] at hAfter
    obtain ⟨place, hPlace, hFree, rfl⟩ := exists_of_write?_eq_some hAfter
    obtain rfl := Option.some.inj (hPlace.symm.trans hLeads)
    exact keepsOthers_put_file hFree hHolds

end Store

end Marginalia
