import LoxLexer.Proofs.Opening
import Mathlib.Data.List.Basic

/-!
# `LoxLexer.Proofs.Arguments` — an argument list, item by item

Arguments are not read one by one: a file option takes the argument after it, whatever this looks like, so an
argument is an option or a path by what stands in front of it. An argument list is therefore taken apart into
items first, which can be done in one way only. What the list asks for is then read off the items: the first
one that is a request of its own, such as help or a mistake, and if there is none, the last path and whether
any item is the quiet flag. Nothing else about the items makes a difference.

## Contents
- `Item`, `Itemized` — the items of an argument list. `itemized_iff` says that there is one list of items
  for each list of arguments, the one that `items` finds.
- `requestOf`, `ofArguments_eq_requestOf` — what the items ask for is what the arguments ask for.
- `ItemLaw`, `run_itemLaw` — what a run depends on, and what it does not.
-/

namespace LoxLexer

/-! ## Items -/

def helpNames : List Bytes := [ascii "--help", ascii "-h"]

def versionNames : List Bytes := [ascii "--version", ascii "-v"]

def quietNames : List Bytes := [ascii "--quiet", ascii "-q"]

def fileNames : List Bytes := [ascii "--file", ascii "-f"]

/-- Every option there is. -/
def optionNames : List Bytes := helpNames ++ versionNames ++ quietNames ++ fileNames

/-- The byte that options start with. -/
def dash : UInt8 := '-'.toUInt8

/-- One item of an argument list. -/
inductive Item where
  | help (option : Bytes)
  | version (option : Bytes)
  | quiet (option : Bytes)
  /-- The file option and the argument after it. -/
  | file (option path : Bytes)
  /-- The file option with nothing after it. -/
  | missingFile (option : Bytes)
  | path (argument : Bytes)
  | unknown (argument : Bytes)
deriving DecidableEq, Repr

namespace Item

/-- The arguments that the item takes. -/
def arguments : Item → List Bytes
  | .file option argument => [option, argument]
  | .help argument | .version argument | .quiet argument | .missingFile argument | .path argument
  | .unknown argument => [argument]

/-- The item is called what it is: an option has one of its names, a path by itself is not empty and starts
    with no dash, and what is neither is unknown. -/
def Fits : Item → Prop
  | .help option => option ∈ helpNames
  | .version option => option ∈ versionNames
  | .quiet option => option ∈ quietNames
  | .file option _ | .missingFile option => option ∈ fileNames
  | .path argument => argument ≠ [] ∧ argument.head? ≠ some dash
  | .unknown argument => (argument = [] ∨ argument.head? = some dash) ∧ argument ∉ optionNames

/-- The item can have others behind it. -/
def isComplete : Item → Bool
  | .missingFile _ => false
  | _ => true

/-- What the item asks for, if it is a request of its own. -/
def verdict? : Item → Option Request
  | .help _ => some .help
  | .version _ => some .version
  | .missingFile option => some (.missingFile option)
  | .unknown argument => some (.unknownOption argument)
  | _ => none

/-- The path that the item gives, in either of the two ways. -/
def path? : Item → Option Bytes
  | .file _ argument | .path argument => some argument
  | _ => none

def isQuiet : Item → Bool
  | .quiet _ => true
  | _ => false

end Item

/-- **The arguments are taken apart into the items**, from left to right. A file option has nothing after it
    only at the very end. -/
inductive Itemized : List Bytes → List Item → Prop where
  | nil : Itemized [] []
  | missingFile {option} (hoption : option ∈ fileNames) : Itemized [option] [.missingFile option]
  | cons {item rest list} (hfits : item.Fits) (hcomplete : item.isComplete = true)
      (hrest : Itemized rest list) : Itemized (item.arguments ++ rest) (item :: list)

/-- The items of an argument list. -/
def items : List Bytes → List Item
  | [] => []
  | argument :: rest =>
    if Request.isHelp argument then .help argument :: items rest
    else if Request.isVersion argument then .version argument :: items rest
    else if Request.isQuiet argument then .quiet argument :: items rest
    else if Request.isFile argument then
      match rest with
      | [] => [.missingFile argument]
      | path :: rest => .file argument path :: items rest
    else if Request.isPath argument then .path argument :: items rest
    else .unknown argument :: items rest

section Tests

variable {argument : Bytes}

theorem isHelp_iff : Request.isHelp argument = true ↔ argument ∈ helpNames := by
  simp [Request.isHelp, helpNames]

theorem isVersion_iff : Request.isVersion argument = true ↔ argument ∈ versionNames := by
  simp [Request.isVersion, versionNames]

theorem isQuiet_iff : Request.isQuiet argument = true ↔ argument ∈ quietNames := by
  simp [Request.isQuiet, quietNames]

theorem isFile_iff : Request.isFile argument = true ↔ argument ∈ fileNames := by
  simp [Request.isFile, fileNames]

theorem isPath_iff :
    Request.isPath argument = true ↔ argument ≠ [] ∧ argument.head? ≠ some dash := by
  simp [Request.isPath, dash]

theorem not_mem_optionNames_iff : argument ∉ optionNames ↔ Request.isHelp argument = false ∧
    Request.isVersion argument = false ∧ Request.isQuiet argument = false ∧
    Request.isFile argument = false := by
  simp only [← Bool.not_eq_true, isHelp_iff, isVersion_iff, isQuiet_iff, isFile_iff, optionNames,
    List.mem_append, not_or, and_assoc]

end Tests

/-- The items that are found are a reading. -/
theorem itemized_items (arguments : List Bytes) : Itemized arguments (items arguments) := by
  fun_induction items arguments with
  | case1 => exact .nil
  | case2 argument rest hhelp ih =>
    exact @Itemized.cons (.help argument) _ _ (isHelp_iff.mp hhelp) rfl ih
  | case3 argument rest _ hversion ih =>
    exact @Itemized.cons (.version argument) _ _ (isVersion_iff.mp hversion) rfl ih
  | case4 argument rest _ _ hquiet ih =>
    exact @Itemized.cons (.quiet argument) _ _ (isQuiet_iff.mp hquiet) rfl ih
  | case5 argument _ _ _ hfile => exact .missingFile (isFile_iff.mp hfile)
  | case6 argument _ _ _ hfile path rest ih =>
    exact @Itemized.cons (.file argument path) _ _ (isFile_iff.mp hfile) rfl ih
  | case7 argument rest _ _ _ _ hpath ih =>
    exact @Itemized.cons (.path argument) _ _ (isPath_iff.mp hpath) rfl ih
  | case8 argument rest hhelp hversion hquiet hfile hpath ih =>
    refine @Itemized.cons (.unknown argument) _ _ ⟨?_, ?_⟩ rfl ih
    · rw [isPath_iff] at hpath
      tauto
    · simp only [not_mem_optionNames_iff, hhelp, hversion, hquiet, hfile, and_self]

/-- An item that fits is the first to be found. -/
theorem items_arguments_append {item : Item} (hfits : item.Fits) (hcomplete : item.isComplete = true)
    (rest : List Bytes) : items (item.arguments ++ rest) = item :: items rest := by
  -- no test but its own finds an option, and none of the first four finds anything else
  cases item with
  | help option =>
    rw [Item.arguments, List.singleton_append, items.eq_def]
    simp [isHelp_iff.mpr hfits]
  | version option =>
    have hother : ∀ name ∈ versionNames, Request.isHelp name = false := by decide
    rw [Item.arguments, List.singleton_append, items.eq_def]
    simp [hother option hfits, isVersion_iff.mpr hfits]
  | quiet option =>
    have hother : ∀ name ∈ quietNames,
        Request.isHelp name = false ∧ Request.isVersion name = false := by decide
    rw [Item.arguments, List.singleton_append, items.eq_def]
    simp [hother option hfits, isQuiet_iff.mpr hfits]
  | file option path =>
    have hother : ∀ name ∈ fileNames, Request.isHelp name = false ∧
        Request.isVersion name = false ∧ Request.isQuiet name = false := by decide
    rw [Item.arguments, items.eq_def]
    simp [hother option hfits, isFile_iff.mpr hfits]
  | missingFile option => cases hcomplete
  | path argument =>
    have hdash : ∀ name ∈ optionNames, name.head? = some dash := by decide
    have hother := not_mem_optionNames_iff.mp fun hname => hfits.2 (hdash argument hname)
    rw [Item.arguments, List.singleton_append, items.eq_def]
    simp [hother, isPath_iff.mpr hfits]
  | unknown argument =>
    obtain ⟨hshape, hname⟩ := hfits
    have hother := not_mem_optionNames_iff.mp hname
    have hpath : Request.isPath argument = false := by
      rw [← Bool.not_eq_true, isPath_iff, not_and_or, not_not, not_not]
      exact hshape
    rw [Item.arguments, List.singleton_append, items.eq_def]
    simp [hother, hpath]

/-- **There is one reading**, and it is found. -/
theorem itemized_iff {arguments : List Bytes} {list : List Item} :
    Itemized arguments list ↔ items arguments = list := by
  constructor
  · intro h
    induction h with
    | nil => rfl
    | @missingFile option hoption =>
      have hother : ∀ name ∈ fileNames, items [name] = [.missingFile name] := by decide
      exact hother option hoption
    | @cons item rest list hfits hcomplete _ ih =>
      rw [items_arguments_append hfits hcomplete, ih]
  · rintro rfl
    exact itemized_items arguments

/-! ## What the items ask for -/

/-- **What items ask for**, after a path (empty for none) and a quiet flag: what the first item asks for that
    is a request of its own, and without such an item a scan of the last path. -/
def requestOf (path : Bytes) (quiet : Bool) (list : List Item) : Request :=
  (list.findSome? Item.verdict?).getD
    (Request.ofArgumentsAfter ((list.filterMap Item.path?).getLast?.getD path)
      (quiet || list.any Item.isQuiet) [])

section RequestOf

variable {path : Bytes} {quiet : Bool} {item : Item} {list : List Item}

theorem requestOf_of_verdict {request : Request} (h : item.verdict? = some request) :
    requestOf path quiet (item :: list) = request := by
  rw [requestOf, List.findSome?_cons_of_isSome (by rw [h]; rfl), h]
  rfl

theorem requestOf_of_no_verdict (h : item.verdict? = none) : requestOf path quiet (item :: list) =
    requestOf (item.path?.getD path) (quiet || item.isQuiet) list := by
  have hpath : ((item :: list).filterMap Item.path?).getLast?.getD path =
      (list.filterMap Item.path?).getLast?.getD (item.path?.getD path) := by
    cases hitem : item.path? with
    | none => rw [List.filterMap_cons_none hitem, Option.getD_none]
    | some argument => rw [List.filterMap_cons_some hitem, List.getLast?_cons]; rfl
  simp only [requestOf, List.findSome?_cons, h, hpath, List.any_cons, Bool.or_assoc]

end RequestOf

/-- **What the items ask for is what the arguments ask for.** -/
theorem ofArgumentsAfter_eq_requestOf (path : Bytes) (quiet : Bool) (arguments : List Bytes) :
    Request.ofArgumentsAfter path quiet arguments = requestOf path quiet (items arguments) := by
  fun_induction items arguments generalizing path quiet with
  | case1 => simp [requestOf]
  | case2 argument rest hhelp ih =>
    rw [requestOf_of_verdict rfl, Request.ofArgumentsAfter.eq_def]
    simp [hhelp]
  | case3 argument rest hhelp hversion ih =>
    rw [requestOf_of_verdict rfl, Request.ofArgumentsAfter.eq_def]
    simp [hhelp, hversion]
  | case4 argument rest hhelp hversion hquiet ih =>
    rw [requestOf_of_no_verdict rfl, ← ih, Request.ofArgumentsAfter.eq_def]
    simp [hhelp, hversion, hquiet, Item.path?, Item.isQuiet]
  | case5 argument hhelp hversion hquiet hfile =>
    rw [requestOf_of_verdict rfl, Request.ofArgumentsAfter.eq_def]
    simp [hhelp, hversion, hquiet, hfile]
  | case6 argument hhelp hversion hquiet hfile file rest ih =>
    rw [requestOf_of_no_verdict rfl, ← ih, Request.ofArgumentsAfter.eq_def]
    simp [hhelp, hversion, hquiet, hfile, Item.path?, Item.isQuiet]
  | case7 argument rest hhelp hversion hquiet hfile hpath ih =>
    rw [requestOf_of_no_verdict rfl, ← ih, Request.ofArgumentsAfter.eq_def]
    simp [hhelp, hversion, hquiet, hfile, hpath, Item.path?, Item.isQuiet]
  | case8 argument rest hhelp hversion hquiet hfile hpath ih =>
    rw [requestOf_of_verdict rfl, Request.ofArgumentsAfter.eq_def]
    simp [hhelp, hversion, hquiet, hfile, hpath]

/-! ## What a run depends on -/

/-- The path that counts, or nothing. -/
def lastPath (list : List Item) : Bytes := (list.filterMap Item.path?).getLast?.getD []

section Runs

variable {arguments arguments' : List Bytes} {list list' front : List Item}

theorem ofArguments_eq_requestOf (hread : Itemized arguments list) :
    Request.ofArguments arguments = requestOf [] false list := by
  rw [← itemized_iff.mp hread]
  exact ofArgumentsAfter_eq_requestOf [] false arguments

/-- Without a request of its own among the items, a scan of the last path is asked for. -/
theorem ofArguments_of_no_verdict (hread : Itemized arguments list)
    (hnone : ∀ item ∈ list, item.verdict? = none) : Request.ofArguments arguments =
      if lastPath list = [] then .noInput else .scan (lastPath list) (list.any Item.isQuiet) := by
  rw [ofArguments_eq_requestOf hread, requestOf, List.findSome?_eq_none_iff.mpr hnone]
  simp only [Option.getD_none, Request.ofArgumentsAfter, List.isEmpty_iff, Bool.false_or]
  rfl

/-- What is behind whole items does not change how they are read. -/
theorem Itemized.append (hread : Itemized arguments front) (hwhole : ∀ item ∈ front, item.isComplete = true)
    (hrest : Itemized arguments' list) : Itemized (arguments ++ arguments') (front ++ list) := by
  induction hread with
  | nil => exact hrest
  | missingFile _ => cases hwhole _ List.mem_cons_self
  | cons hfits hcomplete _ ih =>
    rw [List.append_assoc, List.cons_append]
    exact .cons hfits hcomplete (ih fun item hitem => hwhole item (List.mem_cons_of_mem _ hitem))

theorem findSome?_verdict?_append (hfront : ∀ item ∈ front, item.verdict? = none) :
    (front ++ list).findSome? Item.verdict? = list.findSome? Item.verdict? := by
  rw [List.findSome?_append, List.findSome?_eq_none_iff.mpr hfront, Option.none_or]

/-- **Three things about the items count**: the first request among them, the last path and whether one of
    them is the quiet flag. -/
theorem run_congr (hread : Itemized arguments list) (hread' : Itemized arguments' list')
    (hverdict : list.findSome? Item.verdict? = list'.findSome? Item.verdict?)
    (hpath : lastPath list = lastPath list') (hquiet : list.any Item.isQuiet = list'.any Item.isQuiet)
    (read : Bytes → Option Bytes) (debug : Bool) : run read debug arguments = run read debug arguments' := by
  unfold lastPath at hpath
  simp only [run, ofArguments_eq_requestOf hread, ofArguments_eq_requestOf hread', requestOf, hverdict,
    hpath, hquiet]

/-- Items that count for nothing can be left out. -/
theorem filterMap_filter_of_eq_none {β : Type} {p : Item → Bool} {f : Item → Option β}
    (h : ∀ item, p item = false → f item = none) (list : List Item) :
    (list.filter p).filterMap f = list.filterMap f := by
  rw [List.filterMap_filter]
  refine List.filterMap_congr fun item _ => ?_
  cases hitem : p item with
  | false => simp [h item hitem]
  | true => simp

/-- What an item asks for by itself is not a scan. -/
theorem path?_eq_none_of_verdict {item : Item} {request : Request} (h : item.verdict? = some request) :
    request.path? = none := by
  cases item <;> cases h <;> rfl

theorem verdict?_eq_none_of_isQuiet {item : Item} (h : item.isQuiet = true) : item.verdict? = none := by
  cases item <;> trivial

theorem path?_eq_none_of_isQuiet {item : Item} (h : item.isQuiet = true) : item.path? = none := by
  cases item <;> trivial

theorem verdict?_eq_none_of_path? {item : Item} (h : item.path?.isSome) : item.verdict? = none := by
  cases item <;> trivial

theorem isQuiet_eq_false_of_path? {item : Item} (h : item.path?.isSome) : item.isQuiet = false := by
  cases item <;> trivial

/-- The quiet items can be left out, and the last path stays. -/
theorem lastPath_filter_not_isQuiet (list : List Item) :
    lastPath (list.filter (!·.isQuiet)) = lastPath list := by
  rw [lastPath, lastPath, filterMap_filter_of_eq_none]
  intro item hitem
  exact path?_eq_none_of_isQuiet (by simpa using hitem)

/-- The quiet items can be left out, and the first request stays. -/
theorem findSome?_verdict?_filter_not_isQuiet (list : List Item) :
    (list.filter (!·.isQuiet)).findSome? Item.verdict? = list.findSome? Item.verdict? := by
  rw [← List.head?_filterMap, ← List.head?_filterMap, filterMap_filter_of_eq_none]
  intro item hitem
  exact verdict?_eq_none_of_isQuiet (by simpa using hitem)

/-- A later path counts, whatever comes before it. -/
theorem lastPath_append {back : List Item} (hback : ∃ later ∈ back, later.path?.isSome)
    (front : List Item) : lastPath (front ++ back) = lastPath back := by
  obtain ⟨later, hlater, hpath⟩ := hback
  obtain ⟨path, hpath⟩ := Option.isSome_iff_exists.mp hpath
  have hne : back.filterMap Item.path? ≠ [] :=
    List.ne_nil_of_mem (List.mem_filterMap.mpr ⟨later, hlater, hpath⟩)
  rw [lastPath, lastPath, List.filterMap_append, List.getLast?_append_of_ne_nil _ hne]

end Runs

/-! ## The law -/

/-- **What an argument list makes the program do.** -/
structure ItemLaw : Prop where
  /-- Every argument list is taken apart into items, in one way. -/
  existsUnique (arguments : List Bytes) : ∃! list, Itemized arguments list
  /-- Whole items stay as they are, whatever arguments follow. -/
  followed {arguments : List Bytes} {front : List Item} (hread : Itemized arguments front)
    (hwhole : ∀ item ∈ front, item.isComplete = true) (rest : List Bytes) :
    ∃ back, Itemized (arguments ++ rest) (front ++ back)
  /-- The first item that is a request of its own decides alone: neither what is around it nor a file nor the
      debug variable makes a difference, and no file is opened. -/
  decided {arguments : List Bytes} {front back : List Item} {item : Item} {request : Request}
    (hread : Itemized arguments (front ++ item :: back))
    (hfirst : ∀ earlier ∈ front, earlier.verdict? = none) (hverdict : item.verdict? = some request) :
    (∀ read debug, run read debug arguments = request.run (fun _ => none) false) ∧
      (Request.ofArguments arguments).path? = none
  /-- Without such an item, the last path is scanned, quietly if any item says so. -/
  undecided {arguments : List Bytes} {list : List Item} (hread : Itemized arguments list)
    (hnone : ∀ item ∈ list, item.verdict? = none) (read : Bytes → Option Bytes) (debug : Bool) :
    run read debug arguments =
      if lastPath list = [] then ⟨1, [], usageText⟩
      else runScan read debug (lastPath list) (list.any Item.isQuiet)
  /-- That path is what is opened, and without one nothing is. -/
  opened {arguments : List Bytes} {list : List Item} (hread : Itemized arguments list)
    (hnone : ∀ item ∈ list, item.verdict? = none) :
    (Request.ofArguments arguments).path? = if lastPath list = [] then none else some (lastPath list)
  /-- Quiet items can be repeated and moved. -/
  quietMoved {arguments arguments' : List Bytes} {list list' : List Item}
    (hread : Itemized arguments list) (hread' : Itemized arguments' list')
    (hothers : list.filter (!·.isQuiet) = list'.filter (!·.isQuiet))
    (hquiet : list.any Item.isQuiet = list'.any Item.isQuiet)
    (read : Bytes → Option Bytes) (debug : Bool) :
    run read debug arguments = run read debug arguments'
  /-- Paths can be added before the last one. -/
  pathsAdded {arguments arguments' : List Bytes} {front added back : List Item}
    (hread : Itemized arguments (front ++ added ++ back)) (hread' : Itemized arguments' (front ++ back))
    (hadded : ∀ item ∈ added, item.path?.isSome) (hback : ∃ later ∈ back, later.path?.isSome)
    (read : Bytes → Option Bytes) (debug : Bool) :
    run read debug arguments = run read debug arguments'
  /-- A path that can stand by itself can as well follow a file option. -/
  eitherWay {arguments : List Bytes} {front : List Item} {option path : Bytes}
    (hread : Itemized arguments front) (hwhole : ∀ item ∈ front, item.isComplete = true)
    (hoption : option ∈ fileNames) (hpath : path ≠ [] ∧ path.head? ≠ some dash) (rest : List Bytes)
    (read : Bytes → Option Bytes) (debug : Bool) :
    run read debug (arguments ++ path :: rest) = run read debug (arguments ++ option :: path :: rest)

theorem run_itemLaw : ItemLaw where
  existsUnique arguments := ⟨items arguments, itemized_items arguments, fun _ h => (itemized_iff.mp h).symm⟩
  followed hread hwhole rest := ⟨items rest, hread.append hwhole (itemized_items rest)⟩
  decided {arguments front back item request} hread hfirst hverdict := by
    have hrequest : Request.ofArguments arguments = request := by
      rw [ofArguments_eq_requestOf hread, requestOf, findSome?_verdict?_append hfirst,
        List.findSome?_cons_of_isSome (by rw [hverdict]; rfl), hverdict]
      rfl
    have hpath : request.path? = none := path?_eq_none_of_verdict hverdict
    rw [hrequest]
    refine ⟨fun read debug => ?_, hpath⟩
    rw [run, hrequest, Request.run_of_path?_eq_none hpath]
  undecided {arguments list} hread hnone read debug := by
    rw [run, ofArguments_of_no_verdict hread hnone]
    by_cases hpath : lastPath list = []
    · rw [if_pos hpath, if_pos hpath]
      rfl
    · rw [if_neg hpath, if_neg hpath]
      rfl
  opened {arguments list} hread hnone := by
    rw [ofArguments_of_no_verdict hread hnone]
    by_cases hpath : lastPath list = []
    · rw [if_pos hpath, if_pos hpath]
      rfl
    · rw [if_neg hpath, if_neg hpath]
      rfl
  quietMoved {arguments arguments' list list'} hread hread' hothers hquiet := by
    refine run_congr hread hread' ?_ ?_ hquiet
    · rw [← findSome?_verdict?_filter_not_isQuiet list, hothers, findSome?_verdict?_filter_not_isQuiet]
    · rw [← lastPath_filter_not_isQuiet list, hothers, lastPath_filter_not_isQuiet]
  pathsAdded {arguments arguments' front added back} hread hread' hadded hback := by
    have hverdict : ∀ item ∈ added, item.verdict? = none := fun item hitem =>
      verdict?_eq_none_of_path? (hadded item hitem)
    have hquiet : added.any Item.isQuiet = false :=
      List.any_eq_false.mpr fun item hitem => by simp [isQuiet_eq_false_of_path? (hadded item hitem)]
    refine run_congr hread hread' ?_ ?_ ?_
    · rw [List.append_assoc, List.findSome?_append, findSome?_verdict?_append hverdict,
        ← List.findSome?_append]
    · rw [lastPath_append hback, lastPath_append hback]
    · simp only [List.any_append, hquiet, Bool.or_false]
  eitherWay {arguments front option path} hread hwhole hoption hpath rest := by
    have hplain := hread.append hwhole (@Itemized.cons (.path path) _ _ hpath rfl (itemized_items rest))
    have hfile := hread.append hwhole (@Itemized.cons (.file option path) _ _ hoption rfl (itemized_items rest))
    refine run_congr hplain hfile ?_ ?_ ?_
    · rw [List.findSome?_append, List.findSome?_append]
      rfl
    · rw [lastPath, lastPath, List.filterMap_append, List.filterMap_append]
      rfl
    · rw [List.any_append, List.any_append]
      rfl

/-- A quiet flag after a file option is a path, and so is help. -/
example : items [ascii "-f", ascii "-q", ascii "a", ascii "--file", ascii "--help"] =
    [.file (ascii "-f") (ascii "-q"), .path (ascii "a"), .file (ascii "--file") (ascii "--help")] := by
  decide

end LoxLexer
