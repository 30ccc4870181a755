import ObTools.Lib.Delimiter
import ObTools.Text.Split

/-!
This module contains the model of how `File::Path` resolves one path against another, and the proof of when what it
makes is the location that the two paths stand for.
-/

namespace ObTools
namespace File

abbrev Bytes := List UInt8

def sepChar : UInt8 := 47

def altSepChar : UInt8 := 0

def isSepChar (c : UInt8) : Bool := c = sepChar ∨ (altSepChar ≠ 0 ∧ c = altSepChar)

namespace Path

open Delimiter (rfind)

-- From a directory and a leaf
def ofDirLeaf (dir leaf : Bytes) : Bytes :=
  if dir = [46] then leaf
  else if dir = [] ∨ dir.getLast?.any isSepChar then dir ++ leaf
  else dir ++ sepChar :: leaf

def isAbsolute (path : Bytes) : Bool := path.head?.any isSepChar

-- Everything before the last separator
def dirname (path : Bytes) : Bytes :=
  let slash :=
    match rfind sepChar path with
    | none => if altSepChar ≠ 0 then rfind altSepChar path else none
    | some slash =>
      match rfind altSepChar path with
      | none => some slash
      | some altSlash => if altSlash > slash then some altSlash else some slash
  match slash with
  | none => [46]
  | some 0 => [47]
  | some slash => path.take slash

-- Strips `../` from the new path and moves up
def resolveLoop (dn : Bytes) : Bytes → Bytes
  | 46 :: 46 :: 47 :: c :: nn =>
    -- Stop if we reach .
    if dn = [46] then 46 :: 46 :: 47 :: c :: nn
    else resolveLoop (dirname dn) (c :: nn)
  | nn => ofDirLeaf dn nn

def resolve (path newPath : Bytes) : Bytes :=
  if isAbsolute newPath then newPath
  else resolveLoop (dirname path) newPath

/-
What a path stands for, without a look at the file system: the names that lead to it, innermost first, and how many
directories it is above where a relative path starts.
-/
structure Location where
  absolute : Bool
  ups : Nat
  names : List Bytes
deriving DecidableEq

namespace Location

def start (absolute : Bool) : Location := ⟨absolute, 0, []⟩

def up (loc : Location) : Location :=
  match loc.names with
  | _ :: names => { loc with names }
  | [] => if loc.absolute then loc else { loc with ups := loc.ups + 1 }

def enter (loc : Location) (component : Bytes) : Location :=
  if component = [] ∨ component = [46] then loc
  else if component = [46, 46] then loc.up
  else { loc with names := component :: loc.names }

def walk (loc : Location) (path : Bytes) : Location := (Text.split path 47 false 0).foldl enter loc

end Location

open Location

def denotes (path : Bytes) : Location := (start (isAbsolute path)).walk path

/-
The paths that are resolved: some `..` at most, and then names.
-/
structure Name where
  text : Bytes
  ne_nil : text ≠ []
  no_sep : sepChar ∉ text
  no_nul : 0 ∉ text
  ne_dot : text ≠ [46]
  ne_dotdot : text ≠ [46, 46]

structure Shape where
  absolute : Bool
  ups : Nat
  names : List Name

def dotdot : Bytes := [46, 46]

namespace Shape

def components (s : Shape) : List Bytes := List.replicate s.ups dotdot ++ s.names.map Name.text

def str (s : Shape) : Bytes := (if s.absolute then [47] else []) ++ [47].intercalate s.components

-- The `..` that something follows
def leading (s : Shape) : Nat := if s.names = [] then s.ups - 1 else s.ups

end Shape

structure IsComponent (c : Bytes) : Prop where
  ne_nil : c ≠ []
  no_sep : 47 ∉ c
  no_nul : 0 ∉ c
  ne_dot : c ≠ [46]

def pathText (absolute : Bool) (components : List Bytes) : Bytes :=
  (if absolute then [47] else []) ++ [47].intercalate components

-- As a directory
def dirText (absolute : Bool) (components : List Bytes) : Bytes :=
  if components = [] then (if absolute then [47] else [46]) else pathText absolute components

variable {path leaf : Bytes} {absolute : Bool} {components rest : List Bytes} {c : Bytes}

/-
What the functions do to a path that is made of components.
-/

theorem dirname_of_no_sep (h : 47 ∉ path) : dirname path = [46] := by
  unfold dirname
  rw [show rfind sepChar path = none from Delimiter.rfind_eq_none h]
  rfl

theorem dirname_append (hnul : 0 ∉ path ++ 47 :: leaf) (hleaf : 47 ∉ leaf)
    : dirname (path ++ 47 :: leaf) = if path = [] then [47] else path := by
  unfold dirname
  rw [show rfind sepChar (path ++ 47 :: leaf) = some path.length from Delimiter.rfind_append hleaf path,
    show rfind altSepChar (path ++ 47 :: leaf) = none from Delimiter.rfind_eq_none hnul]
  cases path with
  | nil => rfl
  | cons d path =>
    rw [if_neg (List.cons_ne_nil _ _)]
    exact List.take_left

theorem not_mem_intercalate {x : UInt8} (hsep : x ≠ 47) (h : ∀ c ∈ components, x ∉ c)
    : x ∉ [47].intercalate components := by
  induction components with
  | nil => exact List.not_mem_nil
  | cons c components ih =>
    have hc := h c List.mem_cons_self
    cases components with
    | nil => rwa [List.intercalate_singleton]
    | cons d components =>
      rw [List.intercalate_cons_cons, List.mem_append, List.mem_append, List.mem_singleton]
      have hrest := ih fun c hc => h c (List.mem_cons_of_mem _ hc)
      simp [hc, hsep, hrest]

theorem join_ne_nil (h : ∀ c ∈ components, IsComponent c) (hne : components ≠ [])
    : [47].intercalate components ≠ [] := by
  intro hnil
  exact hne ((Text.intercalate_eq_nil_iff [47] fun c hc => (h c hc).ne_nil).mp hnil)

theorem dirname_pathText (absolute : Bool) (h : ∀ c ∈ components, IsComponent c)
    : dirname (pathText absolute components) = dirText absolute components.dropLast := by
  rcases List.eq_nil_or_concat' components with rfl | ⟨parents, c, rfl⟩
  . cases absolute with
    | false => rfl
    | true => rfl
  . rw [List.dropLast_concat]
    have hc := h c (List.mem_append_right _ List.mem_cons_self)
    have hnul : 0 ∉ [47].intercalate (parents ++ [c]) := not_mem_intercalate (by decide) fun c hc => (h c hc).no_nul
    unfold dirText pathText
    by_cases hparents : parents = []
    . rw [if_pos hparents, hparents, List.nil_append, List.intercalate_singleton]
      cases absolute with
      | false => exact dirname_of_no_sep hc.no_sep
      | true => exact @dirname_append [] c (by simpa using hc.no_nul) hc.no_sep
    . obtain ⟨before, d, rfl⟩ := (List.eq_nil_or_concat' parents).resolve_left hparents
      have hne := join_ne_nil (fun c hc => h c (List.mem_append_left _ hc)) hparents
      rw [Text.intercalate_concat _ hparents, List.append_assoc] at hnul
      rw [if_neg hparents, Text.intercalate_concat _ hparents, List.append_assoc, List.singleton_append,
        ← List.append_assoc, dirname_append _ hc.no_sep, if_neg]
      . simp [hne]
      . cases absolute with
        | false => exact hnul
        | true => simpa using hnul

theorem dirname_dirText (absolute : Bool) (h : ∀ c ∈ components, IsComponent c)
    : dirname (dirText absolute components) = dirText absolute components.dropLast := by
  by_cases hnil : components = []
  . rw [hnil]
    cases absolute with
    | false => rfl
    | true => rfl
  . have hdir := dirname_pathText absolute h
    rwa [dirText, if_neg hnil]

theorem dirText_ne_nil (absolute : Bool) (h : ∀ c ∈ components, IsComponent c) : dirText absolute components ≠ [] := by
  unfold dirText
  by_cases hnil : components = []
  . rw [if_pos hnil]
    cases absolute with
    | false => exact List.cons_ne_nil _ _
    | true => exact List.cons_ne_nil _ _
  . rw [if_neg hnil]
    exact List.append_ne_nil_of_right_ne_nil _ (join_ne_nil h hnil)

theorem dirText_eq_dot_iff (h : ∀ c ∈ components, IsComponent c)
    : dirText absolute components = [46] ↔ absolute = false ∧ components = [] := by
  unfold dirText pathText
  cases components with
  | nil => cases absolute <;> simp
  | cons c rest =>
    have hc := h c List.mem_cons_self
    rw [if_neg (List.cons_ne_nil _ _)]
    cases absolute with
    | true => simp
    | false =>
      cases rest with
      | nil => simpa using hc.ne_dot
      | cons d rest =>
        rw [List.intercalate_cons_cons]
        constructor
        . intro heq
          have hmem : (47 : UInt8) ∈ [46] := by
            rw [← heq]
            simp
          contradiction
        . intro hnil
          exact absurd hnil.2 (List.cons_ne_nil _ _)

theorem isAbsolute_append (h : path ≠ []) (rest : Bytes) : isAbsolute (path ++ rest) = isAbsolute path := by
  cases path with
  | nil => exact absurd rfl h
  | cons d path => rfl

theorem isAbsolute_join (h : ∀ c ∈ components, IsComponent c) : isAbsolute ([47].intercalate components) = false := by
  cases components with
  | nil => rfl
  | cons c components =>
    have hc := h c List.mem_cons_self
    cases c with
    | nil => exact absurd rfl hc.ne_nil
    | cons d c =>
      have hd : isSepChar d = false := by
        have hne : 47 ≠ d := fun hd => hc.no_sep (hd ▸ List.mem_cons_self)
        simpa [isSepChar, sepChar, altSepChar] using Ne.symm hne
      cases components with
      | nil => simpa [isAbsolute] using hd
      | cons e components => simpa [isAbsolute, List.intercalate_cons_cons] using hd

theorem isAbsolute_dirText (absolute : Bool) (h : ∀ c ∈ components, IsComponent c)
    : isAbsolute (dirText absolute components) = absolute := by
  unfold dirText pathText
  split
  . cases absolute <;> rfl
  . cases absolute with
    | true => rfl
    | false => exact isAbsolute_join h

/-
Where a path that is made of others leads.
-/

theorem walk_append (loc : Location) (path rest : Bytes)
    : loc.walk (path ++ 47 :: rest) = (loc.walk path).walk rest := by
  unfold walk
  rw [Text.split_append, List.foldl_append]

theorem walk_join (loc : Location) (h : ∀ c ∈ components, IsComponent c)
    : loc.walk ([47].intercalate components) = components.foldl enter loc := by
  cases components with
  | nil => rfl
  | cons c components =>
    unfold walk
    rw [Text.split_intercalate fun c hc => (h c hc).no_sep]

theorem walk_dirText (loc : Location) (absolute : Bool) (h : ∀ c ∈ components, IsComponent c)
    : loc.walk (dirText absolute components) = components.foldl enter loc := by
  unfold dirText pathText
  by_cases hnil : components = []
  . rw [if_pos hnil, hnil]
    cases absolute with
    | false => rfl
    | true => rfl
  . rw [if_neg hnil]
    have hjoin := walk_join loc h
    cases absolute with
    | false => exact hjoin
    | true => exact (walk_append loc [] _).trans hjoin

theorem denotes_slash (h : path ≠ []) (leaf : Bytes)
    : denotes (path ++ 47 :: leaf) = ((start (isAbsolute path)).walk path).walk leaf := by
  unfold denotes
  rw [isAbsolute_append h, walk_append]

-- The constructor is what the slash in between stands for
theorem denotes_ofDirLeaf (h : path ≠ []) (hleaf : isAbsolute leaf = false)
    : denotes (ofDirLeaf path leaf) = denotes (path ++ 47 :: leaf) := by
  unfold ofDirLeaf
  split
  . next hdot =>
    rw [denotes_slash h, hdot, denotes, hleaf]
    rfl
  . split
    . next hsep =>
      obtain ⟨before, d, rfl⟩ := (List.eq_nil_or_concat' path).resolve_left h
      have hd : d = 47 := by simpa [isSepChar, sepChar, altSepChar] using hsep
      rw [denotes_slash h, denotes, isAbsolute_append h, hd, List.append_assoc, List.singleton_append, walk_append,
        walk_append]
      rfl
    . rfl

/-
The loop, on the components.
-/
def strip (absolute : Bool) : List Bytes → List Bytes → List Bytes × List Bytes
  | dir, c :: d :: new =>
    if c = dotdot then
      if absolute = false ∧ dir = [] then (dir, c :: d :: new)
      else strip absolute dir.dropLast (d :: new)
    else
      (dir, c :: d :: new)
  | dir, new => (dir, new)

theorem resolveLoop_dotdot (dn : Bytes) {nn : Bytes} (h : nn ≠ [])
    : resolveLoop dn (46 :: 46 :: 47 :: nn)
        = if dn = [46] then 46 :: 46 :: 47 :: nn else resolveLoop (dirname dn) nn := by
  cases nn with
  | nil => exact absurd rfl h
  | cons c nn => rfl

theorem resolveLoop_join (dn : Bytes) {nn : Bytes} (h : ∀ c rest, nn ≠ 46 :: 46 :: 47 :: c :: rest)
    : resolveLoop dn nn = ofDirLeaf dn nn := by
  unfold resolveLoop
  split
  . exact absurd rfl (h _ _)
  . rfl

-- A path begins with `../` if its first component is one that others follow
theorem eq_dotdot_of_join {new : List Bytes} (hc : IsComponent c) {d : UInt8} {rest : Bytes}
    (h : [47].intercalate (c :: new) = 46 :: 46 :: 47 :: d :: rest)
    : c = dotdot ∧ new ≠ [] := by
  have hno := hc.no_sep
  cases new with
  | nil =>
    rw [List.intercalate_singleton] at h
    simp [h] at hno
  | cons e new =>
    refine ⟨?_, List.cons_ne_nil _ _⟩
    rw [List.intercalate_cons_cons, List.append_assoc, List.singleton_append] at h
    have htake := (Delimiter.takeWhile_ne hno ([47].intercalate (e :: new))).1
    rw [h] at htake
    exact htake.symm

theorem join_dotdot (d : Bytes) (new : List Bytes)
    : [47].intercalate (dotdot :: d :: new) = 46 :: 46 :: 47 :: [47].intercalate (d :: new) := by
  rw [List.intercalate_cons_cons]
  rfl

theorem resolveLoop_dirText {dir new : List Bytes} (hdir : ∀ c ∈ dir, IsComponent c) (hnew : ∀ c ∈ new, IsComponent c)
    : resolveLoop (dirText absolute dir) ([47].intercalate new)
        = ofDirLeaf (dirText absolute (strip absolute dir new).1) ([47].intercalate (strip absolute dir new).2) := by
  fun_induction strip absolute dir new with
  | case1 dir d new hstop =>
    have hrest := join_ne_nil (fun c hc => hnew c (List.mem_cons_of_mem _ hc)) (List.cons_ne_nil d new)
    have hdot := (dirText_eq_dot_iff hdir).mpr hstop
    rw [hdot, join_dotdot, resolveLoop_dotdot _ hrest, if_pos rfl]
    rfl
  | case2 dir d new hmore ih =>
    have hrest := join_ne_nil (fun c hc => hnew c (List.mem_cons_of_mem _ hc)) (List.cons_ne_nil d new)
    have hdot : dirText absolute dir ≠ [46] := fun h => hmore ((dirText_eq_dot_iff hdir).mp h)
    rw [join_dotdot, resolveLoop_dotdot _ hrest, if_neg hdot, dirname_dirText absolute hdir]
    apply ih
    . intro c hc
      exact hdir c (List.dropLast_subset _ hc)
    . intro c hc
      exact hnew c (List.mem_cons_of_mem _ hc)
  | case3 dir c d new hc =>
    apply resolveLoop_join
    intro e rest heq
    exact hc (eq_dotdot_of_join (hnew c List.mem_cons_self) heq).1
  | case4 dir new hshort =>
    apply resolveLoop_join
    intro e rest heq
    cases new with
    | nil => contradiction
    | cons c new =>
      obtain ⟨-, hne⟩ := eq_dotdot_of_join (hnew c List.mem_cons_self) heq
      obtain ⟨d, rest, rfl⟩ := List.exists_cons_of_ne_nil hne
      exact hshort c d rest rfl

/-
Every `..` that is stripped takes a component off the directory: where that is a `..` itself, the location that is
reached is two directories below the one that is meant.
-/

theorem enter_dotdot (loc : Location) : loc.enter dotdot = loc.up := rfl

theorem enter_name (loc : Location) (hc : IsComponent c) (hne : c ≠ dotdot)
    : loc.enter c = { loc with names := c :: loc.names } := by
  unfold enter
  rw [if_neg (not_or.mpr ⟨hc.ne_nil, hc.ne_dot⟩)]
  exact if_neg hne

theorem isComponent_dotdot : IsComponent dotdot := ⟨by decide, by decide, by decide, by decide⟩

theorem Name.isComponent (name : Name) : IsComponent name.text :=
  ⟨name.ne_nil, name.no_sep, name.no_nul, name.ne_dot⟩

-- How far below the start a relative path ends
def rise (components : List Bytes) : Int := (components.length : Int) - 2 * components.count dotdot

def depth (loc : Location) : Int := (loc.names.length : Int) - loc.ups

theorem rise_append (components rest : List Bytes) : rise (components ++ rest) = rise components + rise rest := by
  unfold rise
  rw [List.length_append, List.count_append]
  omega

theorem rise_dotdot : rise [dotdot] = -1 := rfl

theorem rise_singleton (h : c ≠ dotdot) : rise [c] = 1 := by
  unfold rise
  rw [List.count_singleton, if_neg (by simpa using h)]
  rfl

theorem rise_le_one (c : Bytes) : rise [c] ≤ 1 := by
  by_cases hc : c = dotdot
  . have hdotdot := rise_dotdot
    rw [← hc] at hdotdot
    omega
  . exact Int.le_of_eq (rise_singleton hc)

theorem depth_enter {loc : Location} (hloc : loc.absolute = false) (hc : IsComponent c)
    : (loc.enter c).absolute = false ∧ depth (loc.enter c) = depth loc + rise [c] := by
  by_cases hdotdot : c = dotdot
  . rw [hdotdot, enter_dotdot, rise_dotdot]
    unfold up
    split
    . next hnames =>
      refine ⟨hloc, ?_⟩
      simp only [depth, hnames, List.length_cons]
      omega
    . next hnames =>
      rw [if_neg (by simp [hloc])]
      refine ⟨hloc, ?_⟩
      simp only [depth, hnames, List.length_nil]
      omega
  . rw [enter_name loc hc hdotdot, rise_singleton hdotdot]
    refine ⟨hloc, ?_⟩
    simp only [depth, List.length_cons]
    omega

theorem depth_foldl {loc : Location} (hloc : loc.absolute = false) (h : ∀ c ∈ components, IsComponent c)
    : depth (components.foldl enter loc) = depth loc + rise components := by
  induction components generalizing loc with
  | nil => exact (Int.add_zero _).symm
  | cons c components ih =>
    obtain ⟨hrel, hdepth⟩ := depth_enter hloc (h c List.mem_cons_self)
    have happend := rise_append [c] components
    rw [List.foldl_cons, ih hrel fun c hc => h c (List.mem_cons_of_mem _ hc), hdepth]
    rw [List.singleton_append] at happend
    omega

theorem rise_strip (absolute : Bool) (dir new : List Bytes)
    : rise (dir ++ new) ≤ rise ((strip absolute dir new).1 ++ (strip absolute dir new).2) := by
  fun_induction strip absolute dir new with
  | case1 dir d new hstop => exact Int.le_refl _
  | case2 dir d new hmore ih =>
    refine Int.le_trans ?_ ih
    have hnew := rise_append [dotdot] (d :: new)
    rw [List.singleton_append, rise_dotdot] at hnew
    rw [rise_append, rise_append, hnew]
    rcases List.eq_nil_or_concat' dir with rfl | ⟨parents, c, rfl⟩
    . rw [List.dropLast_nil]
      omega
    . have hc := rise_le_one c
      rw [List.dropLast_concat, rise_append]
      omega
  | case3 dir c d new hc => exact Int.le_refl _
  | case4 dir new hshort => exact Int.le_refl _

theorem mem_strip {dir new : List Bytes} (hc : c ∈ (strip absolute dir new).1 ++ (strip absolute dir new).2)
    : c ∈ dir ++ new := by
  fun_induction strip absolute dir new with
  | case1 dir d new hstop => exact hc
  | case2 dir d new hmore ih =>
    rcases List.mem_append.mp (ih hc) with hc | hc
    . exact List.mem_append_left _ (List.dropLast_subset _ hc)
    . exact List.mem_append_right _ (List.mem_cons_of_mem _ hc)
  | case3 dir d e new hne => exact hc
  | case4 dir new hshort => exact hc

-- Where new components lead from a directory
def leads (absolute : Bool) (dir new : List Bytes) : Location := (dir ++ new).foldl enter (start absolute)

-- The last name is what a `..` takes away
theorem leads_pop (absolute : Bool) (dir : List Bytes) (name : Name) (new : List Bytes)
    : leads absolute (dir ++ [name.text]) (dotdot :: new) = leads absolute dir new := by
  unfold leads
  rw [List.foldl_append, List.foldl_append, List.foldl_append, List.foldl_cons, List.foldl_cons, List.foldl_nil,
    enter_name _ name.isComponent name.ne_dotdot, enter_dotdot]
  rfl

-- The root is above itself
theorem leads_root (ups : Nat) (new : List Bytes) : leads true (List.replicate ups dotdot) new = leads true [] new := by
  unfold leads
  rw [List.foldl_append]
  congr 1
  induction ups with
  | zero => rfl
  | succ ups ih =>
    rw [List.replicate_succ, List.foldl_cons]
    exact ih

theorem strip_dotdot (dir : List Bytes) {new : List Bytes} (hnew : new ≠ [])
    : strip absolute dir (dotdot :: new)
        = if absolute = false ∧ dir = [] then (dir, dotdot :: new) else strip absolute dir.dropLast new := by
  obtain ⟨d, rest, rfl⟩ := List.exists_cons_of_ne_nil hnew
  rfl

theorem isComponent_strip (absolute : Bool) {dir new : List Bytes} (hdir : ∀ c ∈ dir, IsComponent c)
    (hnew : ∀ c ∈ new, IsComponent c)
    : (∀ c ∈ (strip absolute dir new).1, IsComponent c) ∧ ∀ c ∈ (strip absolute dir new).2, IsComponent c := by
  have hall : ∀ c ∈ (strip absolute dir new).1 ++ (strip absolute dir new).2, IsComponent c := by
    intro c hc
    rcases List.mem_append.mp (mem_strip hc) with hc | hc
    . exact hdir c hc
    . exact hnew c hc
  constructor
  . intro c hc
    exact hall c (List.mem_append_left _ hc)
  . intro c hc
    exact hall c (List.mem_append_right _ hc)

theorem strip_ne {new : List Bytes} {ups : Nat} (hnew : new ≠ []) (hcomponents : ∀ c ∈ new, IsComponent c)
    : leads false (strip false (List.replicate (ups + 1) dotdot) (dotdot :: new)).1
          (strip false (List.replicate (ups + 1) dotdot) (dotdot :: new)).2
        ≠ leads false (List.replicate (ups + 1) dotdot) (dotdot :: new) := by
  intro heq
  have hups : ∀ c ∈ List.replicate (ups + 1) dotdot ++ dotdot :: new, IsComponent c := by
    intro c hc
    rcases List.mem_append.mp hc with hc | hc
    . rw [List.eq_of_mem_replicate hc]
      exact isComponent_dotdot
    . rcases List.mem_cons.mp hc with rfl | hc
      . exact isComponent_dotdot
      . exact hcomponents c hc
  have hdepth := congrArg depth heq
  unfold leads at hdepth
  rw [depth_foldl rfl fun c hc => hups c (mem_strip hc), depth_foldl rfl hups] at hdepth
  have hle := rise_strip false (List.replicate ups dotdot) new
  have hcons := rise_append [dotdot] new
  have hdir := rise_append (List.replicate ups dotdot) [dotdot]
  rw [← List.replicate_succ'] at hdir
  rw [List.singleton_append] at hcons
  rw [strip_dotdot _ hnew, if_neg (by simp), List.dropLast_replicate, Nat.add_sub_cancel, rise_append _ (_ :: _), hcons,
    hdir, rise_dotdot] at hdepth
  rw [rise_append] at hle
  omega

section Strip

variable {last : List Bytes} (hlast : ∀ dir, strip absolute dir last = (dir, last))
  (hcomponents : ∀ c ∈ last, IsComponent c)

include hlast hcomponents in
theorem strip_iff (ups : Nat) (names : List Name) {stripped : Nat} (hne : stripped ≠ 0 → last ≠ [])
    : leads absolute
          (strip absolute (List.replicate ups dotdot ++ names.map Name.text) (List.replicate stripped dotdot ++ last)).1
          (strip absolute (List.replicate ups dotdot ++ names.map Name.text) (List.replicate stripped dotdot ++ last)).2
        = leads absolute (List.replicate ups dotdot ++ names.map Name.text) (List.replicate stripped dotdot ++ last)
      ↔ absolute = true ∨ ups = 0 ∨ stripped ≤ names.length := by
  induction stripped generalizing ups names with
  | zero =>
    rw [List.replicate_zero, List.nil_append, hlast]
    simp
  | succ stripped ih =>
    have hlastne := hne (Nat.succ_ne_zero _)
    have ih := fun ups names => ih ups names fun _ => hlastne
    have hnew : List.replicate stripped dotdot ++ last ≠ [] := List.append_ne_nil_of_right_ne_nil _ hlastne
    rw [List.replicate_succ, List.cons_append]
    rcases List.eq_nil_or_concat' names with rfl | ⟨before, name, rfl⟩
    . rw [List.map_nil, List.append_nil]
      cases absolute with
      | true =>
        have hroot := (ih (ups - 1) []).mpr (Or.inl rfl)
        rw [List.map_nil, List.append_nil] at hroot
        rw [strip_dotdot _ hnew, if_neg (by simp), List.dropLast_replicate, hroot, leads_root, leads_root ups]
        exact iff_of_true rfl (Or.inl rfl)
      | false =>
        cases ups with
        | zero =>
          rw [strip_dotdot _ hnew, if_pos ⟨rfl, rfl⟩]
          exact iff_of_true rfl (Or.inr (Or.inl rfl))
        | succ ups =>
          apply iff_of_false
          . apply strip_ne hnew
            intro c hc
            rcases List.mem_append.mp hc with hc | hc
            . rw [List.eq_of_mem_replicate hc]
              exact isComponent_dotdot
            . exact hcomponents c hc
          . simp
    . rw [strip_dotdot _ hnew, List.map_append, List.map_singleton, ← List.append_assoc, if_neg (by simp),
        List.dropLast_concat, leads_pop, ih ups before]
      simp

end Strip

namespace Shape

variable (s : Shape)

theorem isComponent_of_mem {c : Bytes} (hc : c ∈ s.components) : IsComponent c := by
  rcases List.mem_append.mp hc with hc | hc
  . rw [List.eq_of_mem_replicate hc]
    exact isComponent_dotdot
  . obtain ⟨name, -, rfl⟩ := List.mem_map.mp hc
    exact name.isComponent

theorem str_eq : s.str = pathText s.absolute s.components := rfl

-- What is left of the path without what it is resolved by
def settled (s : Shape) : List Bytes :=
  if s.names = [] then (if s.ups = 0 then [] else [dotdot]) else s.names.map Name.text

theorem components_eq : s.components = List.replicate s.leading dotdot ++ s.settled := by
  unfold components leading settled
  by_cases hnames : s.names = []
  . rw [if_pos hnames, if_pos hnames, hnames]
    cases s.ups with
    | zero => rfl
    | succ ups => simp [List.replicate_succ']
  . rw [if_neg hnames, if_neg hnames]

theorem settled_ne_nil (h : s.leading ≠ 0) : s.settled ≠ [] := by
  unfold leading at h
  unfold settled
  by_cases hnames : s.names = []
  . rw [if_pos hnames] at h
    rw [if_pos hnames, if_neg (by omega)]
    exact List.cons_ne_nil _ _
  . rw [if_neg hnames]
    simpa using hnames

theorem strip_settled (absolute : Bool) (dir : List Bytes) : strip absolute dir s.settled = (dir, s.settled) := by
  unfold settled
  by_cases hnames : s.names = []
  . rw [if_pos hnames]
    split <;> rfl
  . rw [if_neg hnames]
    obtain ⟨name, names, hcons⟩ := List.exists_cons_of_ne_nil hnames
    rw [hcons]
    cases names with
    | nil => rfl
    | cons next names => exact if_neg name.ne_dotdot

theorem components_dropLast
    : s.components.dropLast = List.replicate s.leading dotdot ++ s.names.dropLast.map Name.text := by
  unfold components leading
  by_cases hnames : s.names = []
  . rw [if_pos hnames, hnames]
    simp
  . rw [if_neg hnames, List.dropLast_append_of_ne_nil (by simpa using hnames), List.map_dropLast]

end Shape

theorem denotes_dirText {dir new : List Bytes} (hdir : ∀ c ∈ dir, IsComponent c) (hnew : ∀ c ∈ new, IsComponent c)
    : denotes (dirText absolute dir ++ 47 :: [47].intercalate new) = leads absolute dir new := by
  unfold leads
  rw [denotes_slash (dirText_ne_nil absolute hdir), isAbsolute_dirText absolute hdir, walk_dirText _ _ hdir,
    walk_join _ hnew, List.foldl_append]

/--
A path that is resolved against another one is where the directory of that leads to it, if and only if the directory
is not left through a `..` that it begins with.
-/
theorem denotes_resolve_eq_iff (base newPath : Shape) (hrelative : newPath.absolute = false)
    : denotes (resolve base.str newPath.str) = denotes (dirname base.str ++ 47 :: newPath.str)
        ↔ base.absolute = true ∨ base.leading = 0 ∨ newPath.leading ≤ base.names.length - 1 := by
  have hdir : ∀ c ∈ base.components.dropLast, IsComponent c :=
    fun c hc => base.isComponent_of_mem (List.dropLast_subset _ hc)
  have hnew : ∀ c ∈ newPath.components, IsComponent c := fun c hc => newPath.isComponent_of_mem hc
  obtain ⟨hdir', hnew'⟩ := isComponent_strip base.absolute hdir hnew
  have hstr : newPath.str = [47].intercalate newPath.components := by
    rw [Shape.str_eq, pathText, hrelative]
    rfl
  have hdirname : dirname base.str = dirText base.absolute base.components.dropLast :=
    dirname_pathText base.absolute fun c hc => base.isComponent_of_mem hc
  have hsettled : ∀ c ∈ newPath.settled, IsComponent c := by
    intro c hc
    apply hnew
    rw [newPath.components_eq]
    exact List.mem_append_right _ hc
  have hiff := strip_iff (newPath.strip_settled base.absolute) hsettled base.leading base.names.dropLast
    newPath.settled_ne_nil
  rw [List.length_dropLast, ← newPath.components_eq, ← base.components_dropLast] at hiff
  rw [← hiff, hdirname, hstr, denotes_dirText hdir hnew, resolve, if_neg (by simp [isAbsolute_join hnew]), hdirname,
    resolveLoop_dirText hdir hnew, denotes_ofDirLeaf (dirText_ne_nil base.absolute hdir') (isAbsolute_join hnew'),
    denotes_dirText hdir' hnew']

theorem denotes_resolve_sample
    : denotes (resolve [97, 47, 98] [46, 46, 47, 120]) = denotes (dirname [97, 47, 98] ++ 47 :: [46, 46, 47, 120])
        ↔ false = true ∨ 0 = 0 ∨ 1 ≤ 2 - 1 :=
  denotes_resolve_eq_iff
    ⟨false, 0, [⟨[97], by decide, by decide, by decide, by decide, by decide⟩,
      ⟨[98], by decide, by decide, by decide, by decide, by decide⟩]⟩
    ⟨false, 1, [⟨[120], by decide, by decide, by decide, by decide, by decide⟩]⟩ rfl

theorem not_denotes_resolve
    : ¬∀ base newPath : Shape, newPath.absolute = false →
        denotes (resolve base.str newPath.str) = denotes (dirname base.str ++ 47 :: newPath.str) := by
  intro h
  have heq := h ⟨false, 1, [⟨[98], by decide, by decide, by decide, by decide, by decide⟩]⟩
    ⟨false, 1, [⟨[120], by decide, by decide, by decide, by decide, by decide⟩]⟩ rfl
  exact absurd heq (by decide)

end Path

end File
end ObTools
