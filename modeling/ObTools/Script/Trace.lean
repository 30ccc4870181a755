import ObTools.Script.Action

/-!
This module contains the meaning of a script: what each of its elements does in each tick, from those of its children
only. A run of the engine does just that, in every tick until the one that it ends with.
-/

namespace ObTools
namespace Script

open ObTools.Lex (chars)
open Misc (PropertyList)
open Xml (Element)

variable (T : Durations) (lang : Language) (clock : Nat → Stamp)

def kind (xml : Element) : Option Kind := SortedMap.find xml.name lang.registry

def waits (time : T.Duration) (start n : Nat) : Bool :=
  clock n ≤ clock start || T.lt (T.between (clock n) (clock start)) time

def due (spread : T.Duration) (before n : Nat) : Bool :=
  clock before ≤ clock n && T.ge (T.between (clock n) (clock before)) spread

-- What is done as an action is started
mutual

def startTrace : Element → List Element
  | ⟨this, name, content, attrs, children, parent, line⟩ =>
    let xml : Element := ⟨this, name, content, attrs, children, parent, line⟩
    match kind lang xml with
    | none => [xml]
    | some .logAction => [xml]
    | some .setAction => if getAttr xml (chars "var") [] ≠ [] then [xml] else []
    | some .groupAction => startTraces children
    | some .raceAction => startTraces children
    | _ => []

def startTraces : List Element → List Element
  | [] => []
  | child :: children => startTrace child ++ startTraces children

end

/-
What is done by an element in the ticks that it is active in, from the first one. The number of ticks that are looked at
is given, and the number of the first one.
-/
mutual

def trace : Element → Nat → Nat → Ticks Element
  | ⟨this, name, content, attrs, children, parent, line⟩, budget, n =>
    let xml : Element := ⟨this, name, content, attrs, children, parent, line⟩
    match kind lang xml with
    | none => .last []
    | some .logAction => .last []
    | some .setAction => .last []
    | some .delayAction =>
      let time := T.parse (getAttr xml (chars "time") (chars "0"))
      .wait (fun m => !waits T clock time n m) (fun _ _ => .last []) budget n
    | some .sequenceAction => seqTrace children budget n
    | some .scopeAction => seqTrace children budget n
    | some .repeatAction =>
      let times := getAttrInt xml (chars "times") 0
      .again (seqTrace children) budget (if times = 0 then none else some (times.toInt - 1).toNat) budget n
    | some .groupAction => .zip (traces children budget n)
    | some .raceAction =>
      if children.all fun child => (kind lang child).isSome then
        .first budget (traces children budget n)
      else
        .last ((traces children budget n).flatMap Ticks.head)
    | some .replicatedAction =>
      let copies := (getAttrInt xml (chars "copies") 1).toInt.toNat
      let spread := T.parse (getAttr xml (chars "spread") (chars "0"))
      if T.nonzero spread then
        .staggered (due T clock spread) (seqTrace children) copies budget n
      else
        .zip (List.replicate copies (seqTrace children budget n))

-- An unknown action is the end of a sequence
def seqTrace : List Element → Nat → Nat → Ticks Element
  | [], _, _ => .last []
  | child :: children, budget, n =>
    .before (startTrace lang child) <|
      if (kind lang child).isNone || children.isEmpty then
        trace child budget n
      else
        (trace child budget n).andThen fun used => seqTrace children (budget - used) (n + used)

-- Of those that are known
def traces : List Element → Nat → Nat → List (Ticks Element)
  | [], _, _ => []
  | child :: children, budget, n =>
    if (kind lang child).isSome then
      trace child budget n :: traces children budget n
    else
      traces children budget n

end

/-
What an action is to show once it has been started, and a sequence.
-/

abbrev ShowsAction (fuel : Nat) : Nat → Ticks Element → Nat → Action T.Duration → Prop :=
  Ticks.Shows Effect.xml fun con n a => tick T lang (clock n) fuel con a

abbrev ShowsSequence (fuel : Nat) : Nat → Ticks Element → Nat → Sequence (Action T.Duration) → Prop :=
  Ticks.Shows Effect.xml fun con n seq => tickScript T lang fuel (clock n) con seq

abbrev ShowsCopies (fuel budget n : Nat) : List (Ticks Element) → List (Int32 × Sequence (Action T.Duration)) → Prop :=
  List.Forall₂ fun t copy =>
    Ticks.Shows Effect.xml
      (fun con n copy =>
        (tickScript T lang fuel (clock n) (con.add (chars "copy") (Text.itos copy.1)) copy.2).lift (Prod.mk copy.1))
      budget t n copy

-- The children of an element, in a sequence
def ShowsBody (fuel : Nat) (xml : Element) : Prop :=
  ∀ budget n, ShowsSequence T lang clock fuel budget (seqTrace T lang clock xml.children budget n) n (.new xml)

def Meets (fuel : Nat) (xml : Element) : Prop :=
  ∀ budget n a, createAction T lang (clock n) xml = some a →
    ∀ con,
      (start T lang (clock n) fuel con a).active = true
        ∧ (start T lang (clock n) fuel con a).out.map Effect.xml = startTrace lang xml
        ∧ ShowsAction T lang clock fuel budget (trace T lang clock xml budget n) n
          (start T lang (clock n) fuel con a).state

variable {T lang clock} {fuel budget n : Nat} {xml x : Element} {children : List Element} {a : Action T.Duration}
  {t : Ticks Element} {ts : List (Ticks Element)}

theorem createAction_eq_none (now : Stamp) (h : kind lang xml = none) : createAction T lang now xml = none := by
  unfold createAction
  unfold kind at h
  rw [h, Option.map_none]

theorem exists_createAction (T : Durations) (now : Stamp) (h : kind lang xml ≠ none)
    : ∃ a, createAction T lang now xml = some a := by
  obtain ⟨k, hk⟩ := Option.ne_none_iff_exists'.mp h
  unfold createAction
  unfold kind at hk
  rw [hk, Option.map_some]
  exact ⟨_, rfl⟩

/-
Sequences.
-/

def mid (x : Element) (it : List Element) (a : Action T.Duration) : Sequence (Action T.Duration) where
  xml := x
  it := it
  current := some a

-- An action that has not been made yet
def next (x : Element) (it : List Element) : Sequence (Action T.Duration) where
  xml := x
  it := it
  current := none

theorem tickScript_of_none {now : Stamp} (h : createAction T lang now xml = none) {con : PropertyList}
    : tickScript T lang fuel now con (next x (xml :: children))
        = { active := false, out := [.unknown xml], env := con, state := next x (xml :: children) } := by
  simp only [tickScript, Sequence.tick, next, h]

theorem tickScript_of_some {now : Stamp} (h : createAction T lang now xml = some a) {con : PropertyList}
    (hactive : (start T lang now fuel con a).active = true)
    : tickScript T lang fuel now con (next x (xml :: children))
        = { Sequence.tickCurrent (tick T lang now fuel) (start T lang now fuel con a).env
              (mid x children (start T lang now fuel con a).state) (start T lang now fuel con a).state with
            out := (start T lang now fuel con a).out
              ++ (Sequence.tickCurrent (tick T lang now fuel) (start T lang now fuel con a).env
                (mid x children (start T lang now fuel con a).state) (start T lang now fuel con a).state).out } := by
  simp only [tickScript, Sequence.tick, next, h, hactive, if_true]
  rfl

theorem tickScript_mid (now : Stamp) (con : PropertyList) (it : List Element)
    : tickScript T lang fuel now con (mid x it a)
        = Sequence.tickCurrent (tick T lang now fuel) con (mid x it a) a :=
  rfl

theorem tickCurrent_eq (tickAction : PropertyList → Action T.Duration → Result (Action T.Duration)) (con : PropertyList)
    (seq : Sequence (Action T.Duration))
    : (Sequence.tickCurrent tickAction con seq a).out = (tickAction con a).out
      ∧ ((tickAction con a).active = true →
        (Sequence.tickCurrent tickAction con seq a).active = true
          ∧ (Sequence.tickCurrent tickAction con seq a).state = mid seq.xml seq.it (tickAction con a).state)
      ∧ ((tickAction con a).active = false →
        (Sequence.tickCurrent tickAction con seq a).active = !seq.it.isEmpty
          ∧ (Sequence.tickCurrent tickAction con seq a).state = { seq with current := none }) := by
  unfold Sequence.tickCurrent
  dsimp only
  cases hactive : (tickAction con a).active with
  | false =>
    rw [if_neg Bool.false_ne_true]
    exact ⟨rfl, fun h => absurd h Bool.false_ne_true, fun _ => ⟨rfl, rfl⟩⟩
  | true =>
    rw [if_pos rfl]
    exact ⟨rfl, fun _ => ⟨hactive, rfl⟩, fun h => absurd h.symm Bool.false_ne_true⟩

/--
The current action of a sequence is shown, and then what is shown by the sequence behind it.
-/
theorem shows_mid (ha : ShowsAction T lang clock fuel budget t n a) (hnil : children = [])
    : ShowsSequence T lang clock fuel budget t n (mid x children a) := by
  refine ha.embed (R := fun seq a => seq = mid x children a) ?_ rfl
  rintro con n _ a rfl
  obtain ⟨hout, hactive, hinactive⟩ := tickCurrent_eq (tick T lang (clock n) fuel) con (mid x children a) (a := a)
  refine ⟨con, ?_, hout, fun h => (hactive h).2⟩
  cases h : (tick T lang (clock n) fuel con a).active with
  | false =>
    refine (hinactive h).1.trans ?_
    rw [mid, hnil]
    rfl
  | true => exact (hactive h).1

theorem shows_mid_andThen {follows : Nat → Ticks Element} (ha : ShowsAction T lang clock fuel budget t n a)
    (hne : children ≠ [])
    (hfollows : ∀ used, ShowsSequence T lang clock fuel (budget - used) (follows used) (n + used) (next x children))
    : ShowsSequence T lang clock fuel budget (t.andThen follows) n (mid x children a) := by
  refine ha.andThen (R := fun seq a => seq = mid x children a) (Q := fun seq => seq = next x children) ?_ rfl ?_
  . rintro con n _ a rfl
    obtain ⟨hout, hactive, hinactive⟩ := tickCurrent_eq (tick T lang (clock n) fuel) con (mid x children a) (a := a)
    refine ⟨con, ?_, hout, fun h => (hactive h).2, fun h => (hinactive h).2⟩
    cases h : (tick T lang (clock n) fuel con a).active with
    | false =>
      refine (hinactive h).1.trans ?_
      cases children with
      | nil => exact absurd rfl hne
      | cons child children => rfl
    | true => exact (hactive h).1
  . rintro used _ - rfl
    exact hfollows used

theorem seqTrace_of_none {child : Element} (h : kind lang child = none)
    : seqTrace T lang clock (child :: children) budget n = .last [child] := by
  unfold seqTrace
  rw [h]
  simp only [Option.isNone_none, Bool.true_or, if_true]
  unfold trace startTrace
  cases child with
  | mk this name content attrs children parent line =>
    dsimp only
    rw [h]
    rfl

theorem shows_seqTrace (h : ∀ child ∈ children, Meets T lang clock fuel child)
    : ShowsSequence T lang clock fuel budget (seqTrace T lang clock children budget n) n (next x children) := by
  induction children generalizing budget n with
  | nil =>
    refine Ticks.shows_last ?_
    intro con
    exact ⟨rfl, rfl⟩
  | cons child children ih =>
    by_cases hkind : kind lang child = none
    . have hnone := createAction_eq_none (T := T) (clock n) hkind
      rw [seqTrace_of_none hkind]
      refine Ticks.shows_last ?_
      intro con
      rw [tickScript_of_none hnone]
      exact ⟨rfl, rfl⟩
    . obtain ⟨a, ha⟩ := exists_createAction T (clock n) hkind
      have hstart := h child List.mem_cons_self budget n a ha
      unfold seqTrace
      refine Ticks.Shows.before ?_ PropertyList.empty
      intro con
      obtain ⟨hactive, hout, hshows⟩ := hstart con
      refine ⟨(start T lang (clock n) fuel con a).env, mid x children (start T lang (clock n) fuel con a).state, ?_, ?_⟩
      . by_cases hnil : children = []
        . rw [hnil]
          simp only [List.isEmpty_nil, Bool.or_true, if_true]
          exact shows_mid hshows rfl
        . rw [if_neg (by simp [Option.isNone_iff_eq_none, hkind, hnil])]
          refine shows_mid_andThen hshows hnil ?_
          intro used
          exact ih fun c hc => h c (List.mem_cons_of_mem child hc)
      . rw [tickScript_mid, ← hout, ← List.map_append]
        rw [tickScript_of_some ha hactive]
        exact ⟨rfl, rfl, rfl⟩

/-
Actions, by what is shown by those in them.
-/

theorem shows_sequence {seq : Sequence (Action T.Duration)} (h : ShowsSequence T lang clock fuel budget t n seq)
    : ShowsAction T lang clock (fuel + 1) budget t n (.sequenceAction seq) := by
  refine h.embed (R := fun a seq => a = .sequenceAction seq) ?_ rfl
  rintro con n _ seq rfl
  exact ⟨con, rfl, rfl, fun _ => rfl⟩

theorem shows_scope {seq : Sequence (Action T.Duration)} {context : PropertyList} {ticked : Bool}
    (h : ShowsSequence T lang clock fuel budget t n seq)
    : ShowsAction T lang clock (fuel + 1) budget t n (.scopeAction seq context ticked) := by
  refine h.embed (R := fun a seq => ∃ context ticked, a = .scopeAction seq context ticked) ?_ ⟨context, ticked, rfl⟩
  rintro con n _ seq ⟨context, ticked, rfl⟩
  exact ⟨if ticked then context else con, rfl, rfl, fun _ => ⟨_, true, rfl⟩⟩

theorem shows_single (h : a = .logAction xml ∨ a = .setAction xml)
    : ShowsAction T lang clock (fuel + 1) budget (.last []) n a := by
  refine Ticks.shows_last ?_
  intro con
  rcases h with rfl | rfl
  . exact ⟨rfl, rfl⟩
  . exact ⟨rfl, rfl⟩

theorem shows_delay (time : T.Duration) (start : Nat)
    : ShowsAction T lang clock (fuel + 1) budget
        (.wait (fun m => !waits T clock time start m) (fun _ _ => .last []) budget n) n
        (.delayAction (clock start) time) := by
  induction budget generalizing n with
  | zero => trivial
  | succ budget ih =>
    unfold Ticks.wait
    cases hwaits : waits T clock time start n with
    | false =>
      refine Ticks.shows_last ?_
      intro con
      exact ⟨hwaits, rfl⟩
    | true =>
      intro con
      exact ⟨hwaits, rfl, ih⟩

/-
A repeat, with the times that are left when the index is that of an iteration.
-/

theorem tickCurrent_xml (tickAction : PropertyList → Action T.Duration → Result (Action T.Duration))
    (con : PropertyList) (seq : Sequence (Action T.Duration))
    : (Sequence.tickCurrent tickAction con seq a).state.xml = seq.xml := by
  obtain ⟨-, hactive, hinactive⟩ := tickCurrent_eq tickAction con seq (a := a)
  cases h : (tickAction con a).active with
  | false => rw [(hinactive h).2]
  | true => rw [(hactive h).2, mid]

theorem tickScript_xml (T : Durations) (lang : Language) (fuel : Nat) (now : Stamp) (con : PropertyList)
    (seq : Sequence (Action T.Duration))
    : (tickScript T lang fuel now con seq).state.xml = seq.xml := by
  obtain ⟨xml, it, current⟩ := seq
  unfold tickScript Sequence.tick
  cases current with
  | some a => exact tickCurrent_xml _ con _
  | none =>
    cases it with
    | nil => rfl
    | cons child it =>
      dsimp only
      cases createAction T lang now child with
      | none => rfl
      | some a =>
        dsimp only
        split
        . exact tickCurrent_xml _ _ _
        . rfl

theorem restart_eq {seq : Sequence (Action T.Duration)} (h : seq.xml = xml) : seq.restart = .new xml := by
  rw [Sequence.restart, h]
  rfl

theorem tick_repeat (lang : Language) (fuel : Nat) (now : Stamp) (con : PropertyList)
    (seq : Sequence (Action T.Duration)) (index times : Int32)
    : ∃ inner,
        (tick T lang now (fuel + 1) con (.repeatAction seq index times)).out
            = (tickScript T lang fuel now inner seq).out
          ∧ ((tickScript T lang fuel now inner seq).active = true →
            (tick T lang now (fuel + 1) con (.repeatAction seq index times)).active = true
              ∧ (tick T lang now (fuel + 1) con (.repeatAction seq index times)).state
                = .repeatAction (tickScript T lang fuel now inner seq).state index times)
          ∧ ((tickScript T lang fuel now inner seq).active = false →
            ((tick T lang now (fuel + 1) con (.repeatAction seq index times)).active = false
                ↔ times ≠ 0 ∧ times ≤ index + 1)
              ∧ (times = 0 ∨ index + 1 < times →
                (tick T lang now (fuel + 1) con (.repeatAction seq index times)).state
                  = .repeatAction (.new seq.xml) (if times = 0 then index else index + 1) times)) := by
  refine ⟨con.add (chars "index") (Text.itos index), ?_⟩
  have hxml := tickScript_xml T lang fuel now (con.add (chars "index") (Text.itos index)) seq
  have htick : tick T lang now (fuel + 1) con (.repeatAction seq index times)
      = let t := tickScript T lang fuel now (con.add (chars "index") (Text.itos index)) seq
        if t.active then
          t.lift fun seq => .repeatAction seq index times
        else if times = 0 then
          { t.lift (fun seq => .repeatAction seq.restart index times) with active := true }
        else if times ≤ index + 1 then
          t.lift fun seq => .repeatAction seq (index + 1) times
        else
          { t.lift (fun seq => .repeatAction seq.restart (index + 1) times) with active := true } := rfl
  rw [htick]
  dsimp only
  generalize tickScript T lang fuel now (con.add (chars "index") (Text.itos index)) seq = t at hxml ⊢
  cases hactive : t.active with
  | true =>
    rw [if_pos rfl]
    exact ⟨rfl, fun _ => ⟨hactive, rfl⟩, fun h => absurd h.symm Bool.false_ne_true⟩
  | false =>
    rw [if_neg Bool.false_ne_true]
    by_cases hzero : times = 0
    . rw [if_pos hzero, if_pos hzero]
      simp [hzero, Ticked.lift, restart_eq hxml]
    . by_cases hlast : times ≤ index + 1
      . rw [if_neg hzero, if_pos hlast]
        simp [hzero, hlast, Ticked.lift, hactive]
      . rw [if_neg hzero, if_neg hlast, if_neg hzero]
        simp [hzero, hlast, Ticked.lift, restart_eq hxml]

theorem toInt_add_one {index times : Int32} (h : 0 ≤ index.toInt) (hlt : index = 0 ∨ index < times)
    : (index + 1).toInt = index.toInt + 1 := by
  have hmax := times.toInt_lt
  have hbound : index.toInt + 1 < 2 ^ 31 := by
    rcases hlt with rfl | hlt
    . decide
    . have := Int32.lt_iff_toInt_lt.mp hlt
      omega
  rw [Int32.toInt_add]
  exact Int.bmod_eq_of_le (by simp only [Int32.toInt_one]; omega) (by simp only [Int32.toInt_one]; omega)

-- The times that are left, behind the iteration with the index
def Left (times index : Int32) : Option Nat → Prop
  | none => times = 0
  | some left => times ≠ 0 ∧ left = (times.toInt - index.toInt - 1).toNat

theorem left_zero (times : Int32) : Left times 0 (if times = 0 then none else some (times.toInt - 1).toNat) := by
  by_cases h : times = 0
  . rw [if_pos h]
    exact h
  . rw [if_neg h]
    exact ⟨h, by simp only [Int32.toInt_zero]; omega⟩

theorem shows_repeat {times index : Int32} {left : Option Nat} {repeats : Nat}
    (h : ShowsBody T lang clock fuel xml) (hleft : Left times index left) (hindex : 0 ≤ index.toInt)
    (hlt : index = 0 ∨ index < times) (hle : budget ≤ repeats)
    : ShowsAction T lang clock (fuel + 1) budget (.again (seqTrace T lang clock xml.children) repeats left budget n) n
        (.repeatAction (.new xml) index times) := by
  induction repeats generalizing budget n index left with
  | zero =>
    obtain rfl : budget = 0 := by omega
    trivial
  | succ repeats ih =>
    have hnext := toInt_add_one hindex hlt
    unfold Ticks.again
    by_cases hlast : left = some 0
    . subst hlast
      obtain ⟨hzero, hleft⟩ := hleft
      have hle : times ≤ index + 1 := by
        rw [Int32.le_iff_toInt_le, hnext]
        omega
      rw [if_pos rfl]
      refine (h budget n).embed (R := fun a seq => a = .repeatAction seq index times) ?_ rfl
      rintro con n _ seq rfl
      obtain ⟨inner, hout, hactive, hinactive⟩ := tick_repeat lang fuel (clock n) con seq index times
      refine ⟨inner, ?_, hout, fun h => (hactive h).2⟩
      cases hinner : (tickScript T lang fuel (clock n) inner seq).active with
      | true => exact (hactive hinner).1
      | false => exact (hinactive hinner).1.mpr ⟨hzero, hle⟩
    . have hmore : times = 0 ∨ index + 1 < times := by
        cases left with
        | none => exact .inl hleft
        | some left =>
          right
          rw [Int32.lt_iff_toInt_lt, hnext]
          have hne : left ≠ 0 := fun h => hlast (congrArg some h)
          have := hleft.2
          omega
      rw [if_neg hlast]
      refine (h budget n).andThen (R := fun a seq => a = .repeatAction seq index times ∧ seq.xml = xml)
        (Q := fun a => a = .repeatAction (.new xml) (if times = 0 then index else index + 1) times) ?_ ⟨rfl, rfl⟩ ?_
      . rintro con n _ seq ⟨rfl, hxml⟩
        obtain ⟨inner, hout, hactive, hinactive⟩ := tick_repeat lang fuel (clock n) con seq index times
        have hinnerXml := (tickScript_xml T lang fuel (clock n) inner seq).trans hxml
        refine ⟨inner, ?_, hout, fun h => ⟨(hactive h).2, hinnerXml⟩, ?_⟩
        . cases hinner : (tickScript T lang fuel (clock n) inner seq).active with
          | true => exact (hactive hinner).1
          | false =>
            rw [← Bool.not_eq_false, (hinactive hinner).1]
            rintro ⟨hzero, hle⟩
            rcases hmore with hmore | hmore
            . exact hzero hmore
            . exact absurd hmore (Int32.not_lt.mpr hle)
        . intro hinner
          rw [← hxml]
          exact (hinactive hinner).2 hmore
      . rintro used _ hused rfl
        cases left with
        | none =>
          have hzero : times = 0 := hleft
          rw [if_pos hzero]
          exact ih hleft hindex hlt (by omega)
        | some left =>
          have hzero : times ≠ 0 := hleft.1
          have hmore := hmore.resolve_left hzero
          rw [if_neg hzero]
          refine ih ⟨hzero, ?_⟩ (by omega) (.inr hmore) (by omega)
          rw [hnext, hleft.2]
          dsimp only
          omega

/-
Actions side by side.
-/

theorem shows_group {actions : List (Action T.Duration)}
    (h : List.Forall₂ (fun t a => ShowsAction T lang clock fuel budget t n a) ts actions)
    : ShowsAction T lang clock (fuel + 1) budget (.zip ts) n (.parallelAction false xml actions) := by
  induction budget generalizing n ts actions with
  | zero => trivial
  | succ budget ih =>
    rw [Ticks.zip_eq (Ticks.ne_cut_of_shows h)]
    by_cases hrests : ts.filterMap Ticks.rest = []
    . rw [if_pos hrests]
      refine Ticks.shows_last ?_
      intro con
      obtain ⟨hout, hstate⟩ := Ticks.tickAll_shows h con
      rw [hrests, List.forall₂_nil_left_iff] at hstate
      refine ⟨?_, hout⟩
      exact congrArg (fun actions => !List.isEmpty actions) hstate
    . rw [if_neg hrests]
      intro con
      obtain ⟨hout, hstate⟩ := Ticks.tickAll_shows h con
      refine ⟨?_, hout, ih hstate⟩
      have hne : (Ticks.tickAll (fun con a => tick T lang (clock n) fuel con a) con actions).state ≠ [] := by
        intro hnil
        rw [hnil, List.forall₂_nil_right_iff] at hstate
        exact hrests hstate
      exact congrArg not (List.isEmpty_eq_false_iff.mpr hne)

theorem shows_race {actions : List (Action T.Duration)} (hlength : actions.length = xml.children.length)
    (h : List.Forall₂ (fun t a => ShowsAction T lang clock fuel budget t n a) ts actions)
    : ShowsAction T lang clock (fuel + 1) budget (.first budget ts) n (.parallelAction true xml actions) := by
  induction budget generalizing n ts actions with
  | zero => trivial
  | succ budget ih =>
    rw [Ticks.first_eq (Ticks.ne_cut_of_shows h)]
    have hts := h.length_eq
    by_cases hrests : (ts.filterMap Ticks.rest).length = ts.length
    . rw [if_pos hrests]
      intro con
      obtain ⟨hout, hstate⟩ := Ticks.tickAll_shows h con
      have hmore : (Ticks.tickAll (fun con a => tick T lang (clock n) fuel con a) con actions).state.length
          = xml.children.length := by
        rw [← hstate.length_eq, hrests, hts, hlength]
      exact ⟨decide_eq_true hmore, hout, ih hmore hstate⟩
    . rw [if_neg hrests]
      refine Ticks.shows_last ?_
      intro con
      obtain ⟨hout, hstate⟩ := Ticks.tickAll_shows h con
      refine ⟨decide_eq_false ?_, hout⟩
      rw [← hstate.length_eq, ← hlength, ← hts]
      exact hrests

-- With an action that could not be created, it ends with the first tick
theorem shows_race_of_lt {actions : List (Action T.Duration)} (hlength : actions.length < xml.children.length)
    (h : List.Forall₂ (fun t a => ShowsAction T lang clock fuel budget t n a) ts actions)
    : ShowsAction T lang clock (fuel + 1) budget (.last (ts.flatMap Ticks.head)) n
        (.parallelAction true xml actions) := by
  cases budget with
  | zero => trivial
  | succ budget =>
    refine Ticks.shows_last ?_
    intro con
    obtain ⟨hout, hstate⟩ := Ticks.tickAll_shows h con
    refine ⟨decide_eq_false ?_, hout⟩
    have hle := List.length_filterMap_le Ticks.rest ts
    have hts := h.length_eq
    rw [← hstate.length_eq]
    omega

theorem startChildren_shows (budget n : Nat) (h : ∀ child ∈ children, Meets T lang clock fuel child)
    (con : PropertyList)
    : (startChildren T lang (start T lang (clock n) fuel) (clock n) con children).active = true
      ∧ (startChildren T lang (start T lang (clock n) fuel) (clock n) con children).out.map Effect.xml
        = startTraces lang children
      ∧ List.Forall₂ (fun t a => ShowsAction T lang clock fuel budget t n a) (traces T lang clock children budget n)
          (startChildren T lang (start T lang (clock n) fuel) (clock n) con children).state := by
  induction children generalizing con with
  | nil => exact ⟨rfl, rfl, .nil⟩
  | cons child children ih =>
    have ih := ih fun c hc => h c (List.mem_cons_of_mem child hc)
    unfold startChildren startTraces traces
    by_cases hkind : kind lang child = none
    . obtain ⟨hactive, hout, hshows⟩ := ih con
      have htrace : startTrace lang child = [child] := by
        cases child
        unfold startTrace
        dsimp only
        rw [hkind]
      rw [createAction_eq_none (clock n) hkind, htrace, hkind]
      dsimp only
      rw [List.map_cons, hout]
      exact ⟨hactive, rfl, hshows⟩
    . obtain ⟨a, ha⟩ := exists_createAction T (clock n) hkind
      obtain ⟨-, hout, hshows⟩ := h child List.mem_cons_self budget n a ha con
      obtain ⟨-, houts, hothers⟩ := ih (start T lang (clock n) fuel con a).env
      rw [ha, if_pos (Option.isSome_iff_ne_none.mpr hkind)]
      dsimp only
      rw [List.map_append, hout, houts]
      exact ⟨rfl, rfl, .cons hshows hothers⟩

/-
Copies.
-/

theorem shows_copy (copy : Int32 × Sequence (Action T.Duration))
    (h : ShowsSequence T lang clock fuel budget t n copy.2)
    : ShowsCopies T lang clock fuel budget n [t] [copy] := by
  refine .cons (h.embed (R := fun copy seq => copy.2 = seq) ?_ rfl) .nil
  rintro con n ⟨i, seq⟩ _ rfl
  exact ⟨con.add (chars "copy") (Text.itos i), rfl, rfl, fun _ => rfl⟩

variable {copies started : Int32} {lastStart : Stamp} {spread : T.Duration} {c : Copies T.Duration}
  {actions : List (Int32 × Sequence (Action T.Duration))}

theorem tick_replicated
    (hc : startCopies T (clock n) xml copies spread (copies.toInt - started.toInt).toNat
      { started := started, lastStart := lastStart, actions := actions } = c)
    (h : ShowsCopies T lang clock fuel (budget + 1) n ts c.actions) (con : PropertyList)
    : ∃ actions',
        (tick T lang (clock n) (fuel + 1) con (.replicatedAction xml copies spread started lastStart actions)).active
            = (decide (c.started < copies) || !actions'.isEmpty)
        ∧ (tick T lang (clock n) (fuel + 1) con (.replicatedAction xml copies spread started lastStart actions)).state
            = .replicatedAction xml copies spread c.started c.lastStart actions'
        ∧ (tick T lang (clock n) (fuel + 1) con
            (.replicatedAction xml copies spread started lastStart actions)).out.map Effect.xml = ts.flatMap Ticks.head
        ∧ ShowsCopies T lang clock fuel budget (n + 1) (ts.filterMap Ticks.rest) actions' := by
  subst hc
  obtain ⟨hout, hstate⟩ := Ticks.tickAll_shows h con
  exact ⟨_, rfl, rfl, hout, hstate⟩

/--
With the copies that are running after some were started, all of them go on, and with them those that are waited for.
-/
theorem shows_copies
    (hc : startCopies T (clock n) xml copies spread (copies.toInt - started.toInt).toNat
      { started := started, lastStart := lastStart, actions := actions } = c)
    (h : ShowsCopies T lang clock fuel (budget + 1) n ts c.actions)
    (ht : t = .last [] ∧ copies ≤ c.started ∨ ∃ u, t = .next [] u ∧ c.started < copies)
    (hmore : ∀ ts actions, ShowsCopies T lang clock fuel budget (n + 1) ts actions →
        ShowsAction T lang clock (fuel + 1) budget (.zip (ts ++ [t.rest.getD (.last [])])) (n + 1)
          (.replicatedAction xml copies spread c.started c.lastStart actions))
    : ShowsAction T lang clock (fuel + 1) (budget + 1) (.zip (ts ++ [t])) n
        (.replicatedAction xml copies spread started lastStart actions) := by
  rcases ht with ⟨rfl, hstarted⟩ | ⟨u, rfl, hstarted⟩
  . rw [Ticks.zip_append_last, Ticks.zip_eq (Ticks.ne_cut_of_shows h)]
    by_cases hrests : ts.filterMap Ticks.rest = []
    . rw [if_pos hrests]
      refine Ticks.shows_last ?_
      intro con
      obtain ⟨actions', hactive, -, hout, hactions⟩ := tick_replicated hc h con
      rw [hrests] at hactions
      have hnil := List.forall₂_nil_left_iff.mp hactions
      exact ⟨hactive.trans (by simp [hnil, Int32.not_lt.mpr hstarted]), hout⟩
    . rw [if_neg hrests]
      intro con
      obtain ⟨actions', hactive, hstate, hout, hactions⟩ := tick_replicated hc h con
      have hne : actions' ≠ [] := by
        rintro rfl
        exact hrests (List.forall₂_nil_right_iff.mp hactions)
      have hgoes : ShowsAction T lang clock (fuel + 1) budget (.zip (ts.filterMap Ticks.rest ++ [.last []])) (n + 1)
          (.replicatedAction xml copies spread c.started c.lastStart actions') := hmore _ _ hactions
      rw [Ticks.zip_append_last] at hgoes
      refine ⟨hactive.trans (by simp [hne]), hout, ?_⟩
      dsimp only
      rw [hstate]
      exact hgoes
  . have hcut : Ticks.cut ∉ ts ++ [.next [] u] := by
      rw [List.mem_append, List.mem_singleton, not_or]
      exact ⟨Ticks.ne_cut_of_shows h, nofun⟩
    rw [Ticks.zip_eq hcut, List.filterMap_append, List.flatMap_append, if_neg (by simp [Ticks.rest])]
    intro con
    obtain ⟨actions', hactive, hstate, hout, hactions⟩ := tick_replicated hc h con
    refine ⟨hactive.trans (by simp [hstarted]), hout.trans (List.append_nil _).symm, ?_⟩
    dsimp only
    rw [hstate]
    exact hmore _ _ hactions

-- The copies that are left to start
def remaining (copies started : Int32) : Nat := (copies.toInt - started.toInt).toNat

theorem startCopies_of_le (h : copies ≤ c.started) (now : Stamp) (repeats : Nat)
    : startCopies T now xml copies spread repeats c = c := by
  cases repeats with
  | zero => rfl
  | succ repeats =>
    unfold startCopies
    rw [if_neg (Int32.not_lt.mpr h)]

/--
All copies were started: they go on until the last of them has ended.
-/
theorem shows_started (hle : copies ≤ started)
    (h : ShowsCopies T lang clock fuel budget n ts actions)
    : ShowsAction T lang clock (fuel + 1) budget (.zip (ts ++ [.last []])) n
        (.replicatedAction xml copies spread started lastStart actions) := by
  induction budget generalizing n ts actions with
  | zero => trivial
  | succ budget ih =>
    refine shows_copies (startCopies_of_le hle _ _) h (.inl ⟨rfl, hle⟩) ?_
    intro ts actions hactions
    exact ih hactions

theorem startCopies_begin (xml : Element) (now : Stamp) (hspread : T.nonzero spread = true) (hlt : c.started < copies)
    (hdue : c.started = 0 ∨ (c.lastStart ≤ now ∧ T.ge (T.between now c.lastStart) spread = true)) (repeats : Nat)
    : startCopies T now xml copies spread (repeats + 1) c
        = { started := c.started + 1, lastStart := now, actions := c.actions ++ [(c.started, .new xml)] } := by
  unfold startCopies
  rw [if_pos hlt]
  dsimp only
  rw [if_pos hspread, if_pos (by simpa using hdue)]

theorem startCopies_wait (hspread : T.nonzero spread = true) (hne : c.started ≠ 0) {now : Stamp}
    (hdue : ¬(c.lastStart ≤ now ∧ T.ge (T.between now c.lastStart) spread = true)) (repeats : Nat)
    : startCopies T now xml copies spread repeats c = c := by
  cases repeats with
  | zero => rfl
  | succ repeats =>
    unfold startCopies
    by_cases hlt : c.started < copies
    . rw [if_pos hlt]
      dsimp only
      rw [if_pos hspread, if_neg (by simpa [hne] using hdue)]
    . rw [if_neg hlt]

theorem due_of_exists (h : ∃ before, lastStart = clock before ∧ due T clock spread before n = true)
    : lastStart ≤ clock n ∧ T.ge (T.between (clock n) lastStart) spread = true := by
  obtain ⟨before, rfl, hdue⟩ := h
  simpa [due] using hdue

theorem remaining_of_lt (h : 0 ≤ started.toInt) (hlt : started < copies)
    : remaining copies started = remaining copies (started + 1) + 1 := by
  have hnext := toInt_add_one h (.inr hlt)
  have hint := Int32.lt_iff_toInt_lt.mp hlt
  unfold remaining
  omega

theorem remaining_eq_zero_iff : remaining copies started = 0 ↔ copies ≤ started := by
  rw [Int32.le_iff_toInt_le]
  unfold remaining
  omega

/--
The next copy begins in this tick, or it is waited for since the one that the copy before it began at.
-/
theorem shows_staggered
    (hseq : ShowsBody T lang clock fuel xml) (hspread : T.nonzero spread = true) (hstarted : 0 ≤ started.toInt)
    (h : ShowsCopies T lang clock fuel budget n ts actions)
    : (∀ before, started < copies → lastStart = clock before → started ≠ 0 →
        ShowsAction T lang clock (fuel + 1) budget
          (.zip (ts ++ [.wait (due T clock spread before)
            (.staggered (due T clock spread) (seqTrace T lang clock xml.children) (remaining copies started))
            budget n])) n
          (.replicatedAction xml copies spread started lastStart actions))
      ∧ ((started = 0 ∨ ∃ before, lastStart = clock before ∧ due T clock spread before n = true) →
        ShowsAction T lang clock (fuel + 1) budget
          (.zip (ts ++ [.staggered (due T clock spread) (seqTrace T lang clock xml.children) (remaining copies started)
            budget n])) n
          (.replicatedAction xml copies spread started lastStart actions)) := by
  induction budget generalizing n ts actions started lastStart with
  | zero => exact ⟨fun _ _ _ _ => trivial, fun _ => trivial⟩
  | succ budget ih =>
    have hbegin : (started = 0 ∨ ∃ before, lastStart = clock before ∧ due T clock spread before n = true) →
        ShowsAction T lang clock (fuel + 1) (budget + 1)
          (.zip (ts ++ [.staggered (due T clock spread) (seqTrace T lang clock xml.children) (remaining copies started)
            (budget + 1) n])) n
          (.replicatedAction xml copies spread started lastStart actions) := by
      intro hdue
      by_cases hlt : started < copies
      . have hnext := toInt_add_one hstarted (.inr hlt)
        have hremaining := remaining_of_lt hstarted hlt
        have hcopies := startCopies_begin xml (clock n) hspread
          (c := { started := started, lastStart := lastStart, actions := actions }) hlt
          (hdue.imp id (due_of_exists ·)) (remaining copies (started + 1))
        rw [← hremaining] at hcopies
        have hbody := shows_copy (started, .new xml) (hseq (budget + 1) n)
        rw [hremaining, Ticks.staggered, Ticks.zip_append_both, List.append_cons]
        refine shows_copies hcopies (List.rel_append h hbody) ?_ ?_
        . by_cases hzero : remaining copies (started + 1) = 0
          . rw [if_pos hzero]
            exact .inl ⟨rfl, remaining_eq_zero_iff.mp hzero⟩
          . rw [if_neg hzero]
            exact .inr ⟨_, rfl, Int32.not_le.mp (mt remaining_eq_zero_iff.mpr hzero)⟩
        . intro ts actions hactions
          by_cases hzero : remaining copies (started + 1) = 0
          . rw [if_pos hzero]
            exact shows_started (remaining_eq_zero_iff.mp hzero) hactions
          . rw [if_neg hzero]
            have hne : started + 1 ≠ 0 := by
              intro h
              have := congrArg Int32.toInt h
              rw [hnext] at this
              simp only [Int32.toInt_zero] at this
              omega
            exact (ih (by omega) hactions).1 n (Int32.not_le.mp (mt remaining_eq_zero_iff.mpr hzero)) rfl hne
      . rw [remaining_eq_zero_iff.mpr (Int32.not_lt.mp hlt)]
        exact shows_started (Int32.not_lt.mp hlt) h
    refine ⟨?_, hbegin⟩
    rintro before hlt rfl hne
    unfold Ticks.wait
    cases hdue : due T clock spread before n with
    | true => exact hbegin (.inr ⟨before, rfl, hdue⟩)
    | false =>
      have hnot : ¬(clock before ≤ clock n ∧ T.ge (T.between (clock n) (clock before)) spread = true) := by
        simpa [due] using hdue
      refine shows_copies (startCopies_wait hspread hne hnot _) h (.inr ⟨_, rfl, hlt⟩) ?_
      intro ts actions hactions
      exact (ih hstarted hactions).1 before hlt rfl hne

theorem startCopies_all (xml : Element) (copies : Int32) (now : Stamp) (hspread : T.nonzero spread = false)
    (hstarted : 0 ≤ c.started.toInt) (hnow : c.started = 0 ∨ c.lastStart = now)
    : copies ≤ (startCopies T now xml copies spread (remaining copies c.started) c).started
      ∧ ∃ begun, (startCopies T now xml copies spread (remaining copies c.started) c).actions = c.actions ++ begun
          ∧ begun.length = remaining copies c.started ∧ ∀ copy ∈ begun, copy.2 = .new xml := by
  induction hrepeats : remaining copies c.started generalizing c with
  | zero => exact ⟨remaining_eq_zero_iff.mp hrepeats, [], (List.append_nil _).symm, rfl, List.forall_mem_nil _⟩
  | succ repeats ih =>
    have hlt : c.started < copies := by
      rw [← Int32.not_le, ← remaining_eq_zero_iff, hrepeats]
      exact Nat.succ_ne_zero repeats
    have hnext := toInt_add_one hstarted (.inr hlt)
    have hremaining := remaining_of_lt hstarted hlt
    have hdue : (c.started = 0 || (c.lastStart ≤ now && T.ge (T.between now c.lastStart) spread)) = true := by
      rcases hnow with hzero | rfl
      . simp [hzero]
      . simp [T.ge_of_zero c.lastStart spread hspread]
    unfold startCopies
    rw [if_pos hlt]
    dsimp only
    rw [if_neg (by rw [hspread]; exact Bool.false_ne_true), if_pos hdue]
    obtain ⟨hle, begun, hactions, hlength, hbegun⟩ :=
      ih (c := { started := c.started + 1, lastStart := now, actions := c.actions ++ [(c.started, .new xml)] })
        (by dsimp only; omega) (.inr rfl) (by dsimp only; omega)
    refine ⟨hle, (c.started, .new xml) :: begun, ?_, congrArg Nat.succ hlength, ?_⟩
    . rw [hactions]
      exact List.append_assoc _ _ _
    . intro copy hcopy
      rcases List.mem_cons.mp hcopy with rfl | hcopy
      . rfl
      . exact hbegun copy hcopy

theorem forall₂_replicate {α β : Type} {P : β → Prop} {l : List β} {u : α} (h : ∀ b ∈ l, P b)
    : List.Forall₂ (fun t b => t = u ∧ P b) (List.replicate l.length u) l := by
  induction l with
  | nil => exact .nil
  | cons b l ih => exact .cons ⟨rfl, h b List.mem_cons_self⟩ (ih fun c hc => h c (List.mem_cons_of_mem b hc))

/--
Without a spread, all copies begin in the first tick.
-/
theorem shows_at_once
    (hseq : ShowsBody T lang clock fuel xml) (hspread : T.nonzero spread = false)
    : ShowsAction T lang clock (fuel + 1) budget
        (.zip (List.replicate (remaining copies 0) (seqTrace T lang clock xml.children budget n))) n
        (.replicatedAction xml copies spread 0 lastStart []) := by
  cases budget with
  | zero => trivial
  | succ budget =>
    obtain ⟨hle, begun, hactions, hlength, hbegun⟩ :=
      startCopies_all (c := { started := 0, lastStart := lastStart, actions := [] })
        xml copies (clock n) hspread (by decide : 0 ≤ (0 : Int32).toInt) (.inl rfl)
    rw [← Ticks.zip_append_last]
    refine shows_copies rfl ?_ (.inl ⟨rfl, hle⟩) ?_
    . have hlength : begun.length = remaining copies 0 := hlength
      rw [← hlength]
      refine hactions.symm ▸ List.Forall₂.imp ?_ (forall₂_replicate hbegun)
      rintro t copy ⟨rfl, hcopy⟩
      exact (List.forall₂_cons.mp (shows_copy copy (hcopy ▸ hseq (budget + 1) n))).1
    . intro ts actions hts
      exact shows_started hle hts

/-
Each element does what is meant.
-/

theorem remaining_zero : remaining copies 0 = copies.toInt.toNat := by
  unfold remaining
  rw [Int32.toInt_zero, Int.sub_zero]

theorem runSet_eq {σ : Type} (con : PropertyList) (xml : Element) (a : σ)
    : (runSet con xml a).active = true
      ∧ (runSet con xml a).out.map Effect.xml = (if getAttr xml (chars "var") [] ≠ [] then [xml] else [])
      ∧ (runSet con xml a).state = a := by
  unfold runSet
  dsimp only
  split
  . exact ⟨rfl, rfl, rfl⟩
  . exact ⟨rfl, rfl, rfl⟩

theorem depth_le {child : Element} (h : child ∈ children) : depth child ≤ depthAll children := by
  induction children with
  | nil => exact absurd h List.not_mem_nil
  | cons c children ih =>
    unfold depthAll
    rcases List.mem_cons.mp h with rfl | h
    . exact Nat.le_max_left _ _
    . exact Nat.le_trans (ih h) (Nat.le_max_right _ _)

theorem length_startChildren (lang : Language) (children : List Element)
    (startAction : PropertyList → Action T.Duration → Result (Action T.Duration))
    (now : Stamp) (con : PropertyList)
    : (startChildren T lang startAction now con children).state.length
        = (children.filter fun child => (kind lang child).isSome).length := by
  induction children generalizing con with
  | nil => rfl
  | cons child children ih =>
    unfold startChildren
    by_cases hkind : kind lang child = none
    . rw [createAction_eq_none now hkind, List.filter_cons_of_neg (by simp [hkind])]
      exact ih con
    . obtain ⟨a, ha⟩ := exists_createAction T now hkind
      rw [ha, List.filter_cons_of_pos (by simpa [Option.isSome_iff_ne_none] using hkind)]
      exact congrArg Nat.succ (ih _)

/--
An element that is started does what is meant by it, with enough fuel for its depth.
-/
theorem meets (hdepth : depth xml ≤ fuel) : Meets T lang clock fuel xml := by
  induction fuel generalizing xml with
  | zero =>
    cases xml
    exact absurd hdepth (Nat.not_succ_le_zero _)
  | succ fuel ih =>
    cases xml with
    | mk this name content attrs children parent line =>
    have hchildren : ∀ child ∈ children, Meets T lang clock fuel child := fun child hchild =>
      ih (Nat.le_trans (depth_le hchild) (Nat.le_of_succ_le_succ hdepth))
    have hseq : ShowsBody T lang clock fuel ⟨this, name, content, attrs, children, parent, line⟩ :=
      fun _ _ => shows_seqTrace hchildren
    intro budget n a ha con
    have hknown := ha
    unfold createAction at ha
    obtain ⟨k, hk, rfl⟩ := Option.map_eq_some_iff.mp ha
    have hkind : kind lang ⟨this, name, content, attrs, children, parent, line⟩ = some k := hk
    unfold trace startTrace
    dsimp only
    rw [hkind]
    cases k with
    | sequenceAction => exact ⟨rfl, rfl, shows_sequence (hseq budget n)⟩
    | scopeAction => exact ⟨rfl, rfl, shows_scope (hseq budget n)⟩
    | repeatAction =>
      refine ⟨rfl, rfl, ?_⟩
      dsimp only
      refine shows_repeat hseq ?_ (by decide) (.inl rfl) (Nat.le_refl budget)
      exact left_zero _
    | groupAction =>
      obtain ⟨hactive, hout, hshows⟩ := startChildren_shows budget n hchildren con
      exact ⟨hactive, hout, shows_group hshows⟩
    | raceAction =>
      obtain ⟨hactive, hout, hshows⟩ := startChildren_shows budget n hchildren con
      refine ⟨hactive, hout, ?_⟩
      have hlength := length_startChildren lang children (start T lang (clock n) fuel) (clock n) con
      dsimp only
      by_cases hall : (children.all fun child => (kind lang child).isSome) = true
      . rw [if_pos hall]
        refine shows_race ?_ hshows
        refine hlength.trans ?_
        rw [List.filter_eq_self.mpr (List.all_eq_true.mp hall)]
      . rw [if_neg hall]
        refine shows_race_of_lt (hlength.trans_lt ?_) hshows
        refine List.length_filter_lt_length_iff_exists.mpr ?_
        simpa using hall
    | replicatedAction =>
      refine ⟨rfl, rfl, ?_⟩
      dsimp only
      split
      . rename_i hspread
        rw [← remaining_zero, ← Ticks.both_last_nil (.staggered _ _ _ _ _)]
        exact (shows_staggered hseq hspread (by decide : 0 ≤ (0 : Int32).toInt) .nil).2 (.inl rfl)
      . rename_i hspread
        rw [← remaining_zero]
        exact shows_at_once hseq (Bool.eq_false_iff.mpr hspread)
    | logAction => exact ⟨rfl, rfl, shows_single (.inl rfl)⟩
    | setAction =>
      have hset := runSet_eq con ⟨this, name, content, attrs, children, parent, line⟩
        (Action.setAction (D := T.Duration) ⟨this, name, content, attrs, children, parent, line⟩)
      refine ⟨hset.1, hset.2.1, ?_⟩
      dsimp only
      exact shows_single (.inr hset.2.2)
    | delayAction => exact ⟨rfl, rfl, shows_delay _ n⟩

end Script
end ObTools
