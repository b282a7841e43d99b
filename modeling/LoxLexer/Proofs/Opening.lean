import LoxLexer.Command.Outcome
import LoxLexer.Proofs.Addressing
import LoxLexer.Source.Directory

/-!
# `LoxLexer.Proofs.Opening` — what a run opens, and what it can find there

A run opens the path of its request, and nothing where the request has none. What can be read anywhere else
therefore makes no difference to it. In a working directory the path is followed part by part; however many
parts it has, it ends at a file of the directory or somewhere without bytes to read, and a path of a single
part ends at the entry of this name.

## Contents
- `Request.run_congr_read`, `Request.run_of_path?_eq_none` — the request alone says what is opened.
- `Directory.IsName`, `Directory.resolve?_of_isName` — a path of a single part.
- `Directory.read?_contents`, `Directory.readSource_read?` — nothing but files can be read from.
- `Directory.run_congr_place?` — the rest of a directory makes no difference to a run on one of its entries.
-/

namespace LoxLexer

namespace Request

variable {request : Request}

/-- A run depends on what can be read at the path of its request, and on nothing that can be read elsewhere. -/
theorem run_congr_read {read read' : Bytes → Option Bytes}
    (h : ∀ path, request.path? = some path → read path = read' path) (debug : Bool) :
    request.run read debug = request.run read' debug := by
  cases request with
  | scan path quiet =>
    have hsame : readSource read path = readSource read' path := by
      rw [readSource, readSource, h path rfl]
    rw [run, run, runScan, runScan, hsame]
  | _ => rfl

/-- Without a path, neither files nor debug lines matter. -/
theorem run_of_path?_eq_none (h : request.path? = none) (read : Bytes → Option Bytes) (debug : Bool) :
    request.run read debug = request.run (fun _ => none) false := by
  cases request with
  | scan path quiet => cases h
  | _ => rfl

end Request

namespace Directory

variable {d d' : Directory} {name path contents : Bytes} {place place' : Place}

/-! ## A single part -/

/-- **A name can stand in a directory**: it is a path of a single part, and none of those that stay in a
    directory or leave it. -/
structure IsName (name : Bytes) : Prop where
  ne_nil : name ≠ []
  ne_dot : name ≠ ascii "."
  ne_dots : name ≠ ascii ".."
  single : separator ∉ name

/-- A name that is not too long leads to the entry that it names. -/
theorem resolve?_of_isName (h : IsName name) :
    d.resolve? name = if longestPath < name.length then none else d.place? name := by
  have hhead : name.head? ≠ some separator := fun hhead => h.single (List.mem_of_mem_head? hhead)
  have hfollow : d.follow? .here name = d.place? name := by
    rw [follow?, if_neg (not_or.mpr ⟨h.ne_nil, h.ne_dot⟩), if_neg h.ne_dots]
  simp only [resolve?, h.ne_nil, false_or, if_neg hhead, split_of_not_mem h.single, List.foldlM_cons,
    List.foldlM_nil, bind_pure, hfollow]

theorem read?_of_isName (h : IsName name) (hlength : name.length ≤ longestPath)
    (hfile : d.place? name = some (.file contents)) : d.read? name = some contents := by
  rw [read?, resolve?_of_isName h, if_neg (Nat.not_lt.mpr hlength), hfile]
  rfl

/-! ## Many parts -/

/-- A place can be reached in the directory: if it is a file, it is one of the directory's. -/
def Holds (d : Directory) (place : Place) : Prop :=
  ∀ contents, place = .file contents → ∃ file ∈ d.files, file.2 = contents

theorem holds_place? (h : d.place? name = some place) : d.Holds place := by
  intro contents hplace
  subst hplace
  rw [place?] at h
  cases hfind : d.files.find? fun file => file.1 = name with
  | some file =>
    rw [hfind] at h
    cases h
    exact ⟨file, List.mem_of_find?_eq_some hfind, rfl⟩
  | none =>
    rw [hfind] at h
    by_cases hname : name ∈ d.subdirectories <;> simp [hname] at h

/-- **The step**: one part leads to a file only if an entry has it for a name. -/
theorem holds_follow? {part : Bytes} (h : d.follow? place part = some place') : d.Holds place' := by
  cases place with
  | file => cases h
  | outside =>
    rw [follow?, Option.ite_none_right_eq_some] at h
    obtain ⟨-, ⟨⟩⟩ := h
    exact fun _ hfile => nomatch hfile
  | here =>
    rw [follow?] at h
    split_ifs at h
    · cases h
      exact fun _ hfile => nomatch hfile
    · cases h
      exact fun _ hfile => nomatch hfile
    · exact holds_place? h
  | inside =>
    rw [follow?] at h
    split_ifs at h <;> cases h <;> exact fun _ hfile => nomatch hfile

/-- **The run**: so it is after any number of parts. -/
theorem holds_foldlM {parts : List Bytes} (hstart : d.Holds place)
    (h : parts.foldlM d.follow? place = some place') : d.Holds place' := by
  induction parts generalizing place with
  | nil =>
    cases h
    exact hstart
  | cons part parts ih =>
    rw [List.foldlM_cons] at h
    obtain ⟨next, hnext, hrest⟩ := Option.bind_eq_some_iff.mp h
    exact ih (holds_follow? hnext) hrest

/-- **Nothing but files can be read from**: what is found at a path is what a file of the directory holds, or
    it has no bytes. -/
theorem read?_contents (h : d.read? path = some contents) :
    contents = [] ∨ ∃ file ∈ d.files, file.2 = contents := by
  obtain ⟨place, hplace, hcontents⟩ := Option.map_eq_some_iff.mp h
  cases place with
  | file bytes =>
    cases hcontents
    have hstart : d.Holds (if path.head? = some separator then .outside else .here) := by
      split_ifs <;> exact fun _ hfile => nomatch hfile
    rw [resolve?, Option.ite_none_left_eq_some] at hplace
    exact .inr (holds_foldlM hstart hplace.2 bytes rfl)
  | _ => exact .inl hcontents.symm

/-- The text of a source in a directory is that of a file there, or empty. -/
theorem readSource_read? {text : Bytes} (h : readSource d.read? path = .ok text) :
    text = [] ∨ ∃ file ∈ d.files, unifyNewlines file.2 = text := by
  cases hread : d.read? path with
  | none =>
    rw [readSource, hread] at h
    cases h
  | some contents =>
    rw [readSource, hread] at h
    cases h
    rcases read?_contents hread with rfl | ⟨file, hfile, rfl⟩
    · exact .inl rfl
    · exact .inr ⟨file, hfile, rfl⟩

/-! ## Runs in a directory -/

/-- The rest of a directory makes no difference to a run on one of its entries. -/
theorem run_congr_place? (hname : IsName name) (hplace : d.place? name = d'.place? name)
    {arguments : List Bytes} (hrequest : (Request.ofArguments arguments).path? = some name) (debug : Bool) :
    run d.read? debug arguments = run d'.read? debug arguments := by
  refine Request.run_congr_read (fun path hpath => ?_) debug
  obtain rfl : name = path := Option.some.inj (hrequest.symm.trans hpath)
  rw [read?, read?, resolve?_of_isName hname, resolve?_of_isName hname, hplace]

end Directory

end LoxLexer
