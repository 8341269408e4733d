import QueryTree.Proofs.Keyed

/-!
# Options of pages

A page has options that are set by one call after another. The last call counts for each option, so
a page depends neither on calls that are overridden nor on the order of calls for different options:
the options that are set stand in the order of the wire, and the first of them that fails decides
the error, after the set that is paged through.
-/

namespace QueryTree

inductive PageOption where
  | size
  | after
  | before
  | ts
  | events
  | sources
deriving DecidableEq

namespace PageOption

/-- The field that holds the option. -/
def name : PageOption → String
  | .size => "size"
  | .after => "after"
  | .before => "before"
  | .ts => "ts"
  | .events => "events"
  | .sources => "sources"

/-- The options in the order of the wire. -/
def all : List PageOption := [.size, .after, .before, .ts, .events, .sources]

theorem name_inj {option other : PageOption} : option.name = other.name ↔ option = other := by
  cases option <;> cases other <;> decide

theorem name_ne_tag (option : PageOption) : option.name ≠ "paginate" := by
  cases option <;> decide

/-- The argument of the last call that sets the option. -/
def last? (option : PageOption) (calls : List (PageOption × Argument)) : Option Argument :=
  (calls.filter (·.1 = option)).getLast?.map Prod.snd

variable (option : PageOption) (calls calls' : List (PageOption × Argument))

theorem last?_eq_find? :
    option.last? calls = (calls.reverse.find? (·.1 = option)).map Prod.snd := by
  rw [last?, ← List.head?_reverse, ← List.filter_reverse, List.head?_filter]

theorem last?_append :
    option.last? (calls ++ calls') = (option.last? calls').or (option.last? calls) := by
  simp only [last?_eq_find?, List.reverse_append, List.find?_append, Option.map_or]

theorem last?_cons (call : PageOption × Argument) : option.last? (call :: calls) =
    (option.last? calls).or (if call.1 = option then some call.2 else none) := by
  have hcall : option.last? [call] = if call.1 = option then some call.2 else none := by
    rw [last?, List.filter_singleton]
    by_cases h : call.1 = option <;> simp [h]
  rw [← hcall, ← last?_append, List.singleton_append]

/-- A call is overridden by a later one for the same option. -/
theorem last?_overridden (overridden later : PageOption × Argument)
    (between rest : List (PageOption × Argument)) (h : overridden.1 = later.1) :
    option.last? (calls ++ overridden :: between ++ later :: rest) =
      option.last? (calls ++ between ++ later :: rest) := by
  simp only [last?_append, last?_cons, h]
  split <;> simp

theorem last?_filterMap (options : List PageOption) (arguments : PageOption → Option Argument) :
    option.last? (options.filterMap fun o => (arguments o).map (o, ·)) =
      if option ∈ options then arguments option else none := by
  induction options with
  | nil => rfl
  | cons o rest ih =>
    rw [List.filterMap_cons]
    by_cases ho : o = option
    · subst ho
      cases hargument : arguments o with
      | none => simp [ih, hargument]
      | some a =>
        rw [Option.map_some, last?_cons, ih, hargument]
        by_cases hrest : o ∈ rest <;> simp [hrest]
    · cases arguments o with
      | none => simp [ih, Ne.symm ho]
      | some a =>
        rw [Option.map_some, last?_cons, ih]
        simp [ho, Ne.symm ho]

end PageOption

/-- The options of a page. What is not set is left out of the node. -/
structure PageOptions where
  size : Option Argument := none
  after : Option Argument := none
  before : Option Argument := none
  ts : Option Argument := none
  events : Option Argument := none
  sources : Option Argument := none

namespace PageOptions

def get (options : PageOptions) : PageOption → Option Argument
  | .size => options.size
  | .after => options.after
  | .before => options.before
  | .ts => options.ts
  | .events => options.events
  | .sources => options.sources

def set (options : PageOptions) (a : Argument) : PageOption → PageOptions
  | .size => { options with size := some a }
  | .after => { options with after := some a }
  | .before => { options with before := some a }
  | .ts => { options with ts := some a }
  | .events => { options with events := some a }
  | .sources => { options with sources := some a }

/-- What calls leave of options that are not set at first. -/
def ofCalls (calls : List (PageOption × Argument)) : PageOptions :=
  calls.foldl (fun options call => options.set call.2 call.1) {}

/-- The options that are set, in the order of the wire. -/
def settings (options : PageOptions) : List (PageOption × Argument) :=
  PageOption.all.filterMap fun option => (options.get option).map (option, ·)

theorem get_set (options : PageOptions) (a : Argument) (option other : PageOption) :
    (options.set a option).get other = if option = other then some a else options.get other := by
  cases option <;> cases other <;> rfl

theorem get_foldl_set (option : PageOption) (calls : List (PageOption × Argument)) :
    ∀ options : PageOptions,
      (calls.foldl (fun options call => options.set call.2 call.1) options).get option =
        (option.last? calls).or (options.get option) := by
  induction calls with
  | nil => exact fun options => rfl
  | cons call rest ih =>
    intro options
    rw [List.foldl_cons, ih, get_set, PageOption.last?_cons]
    split <;> simp

theorem get_ofCalls (calls : List (PageOption × Argument)) (option : PageOption) :
    (ofCalls calls).get option = option.last? calls := by
  have hunset : ({} : PageOptions).get option = none := by cases option <;> rfl
  rw [ofCalls, get_foldl_set, hunset, Option.or_none]

theorem last?_settings (options : PageOptions) (option : PageOption) :
    option.last? options.settings = options.get option := by
  have hall : option ∈ PageOption.all := by cases option <;> decide
  rw [settings, PageOption.last?_filterMap, if_pos hall]

end PageOptions

/-- The options that are set, in the order of the wire, each with the argument that counts. -/
def pageSettings (calls : List (PageOption × Argument)) : List (PageOption × Argument) :=
  PageOption.all.filterMap fun option => (option.last? calls).map (option, ·)

/-- The set to page through, and then the calls that set options, in their order. -/
def pageOperands (set : Argument) (calls : List (PageOption × Argument)) : Operands :=
  (.field "paginate", set) :: calls.map fun call => (.field call.1.name, call.2)

section

variable (set : Argument) (calls : List (PageOption × Argument))

theorem field?_pageOperands (option : PageOption) :
    (pageOperands set calls).field? option.name = option.last? calls := by
  have hset : (Label.field "paginate" == Label.field option.name) = false := by
    simpa using (option.name_ne_tag).symm
  have hcall : ∀ call : PageOption × Argument,
      (Label.field call.1.name == Label.field option.name) = decide (call.1 = option) := by
    intro call
    rw [Bool.eq_iff_iff, beq_iff_eq, Label.field.injEq, PageOption.name_inj, decide_eq_true_iff]
  rw [Operands.field?, pageOperands, List.reverse_cons, List.find?_append, List.find?_singleton,
    hset, if_neg Bool.false_ne_true, Option.or_none, ← List.map_reverse, List.find?_map,
    Option.map_map, PageOption.last?_eq_find?]
  simp only [Function.comp_def, hcall]

theorem field_pageOperands : (pageOperands set calls).field "paginate" = set := by
  have hcall : ∀ p ∈ (calls.map fun call => (Label.field call.1.name, call.2)).reverse,
      ¬ (p.1 == Label.field "paginate") = true := by
    intro p hp
    obtain ⟨call, -, rfl⟩ := List.mem_map.1 (List.mem_reverse.1 hp)
    simpa using call.1.name_ne_tag
  rw [Operands.field, Operands.field?, pageOperands, List.reverse_cons, List.find?_append,
    List.find?_eq_none.2 hcall]
  simp

variable (numbering : Numbering)

theorem normalizeSlots_pageOperands (options : List PageOption) :
    (pageOperands set calls).normalizeSlots numbering "paginate"
        (options.map fun option => .optionalValue option.name) =
      Build.ofExcept (Argument.normalizeFields "paginate"
        (options.filterMap fun option => (option.last? calls).map (option.name, ·))) := by
  induction options with
  | nil => rfl
  | cons option rest ih =>
    have hfield := field?_pageOperands set calls option
    rw [List.map_cons, Operands.normalizeSlots, ih, List.filterMap_cons]
    simp only [Slot.optionalValue, Operands.fills, Operands.normalizeAt, Operands.field, hfield]
    cases option.last? calls with
    | none => rfl
    | some a =>
      simp only [Option.map_some, Option.getD_some, Argument.normalizeFields, Build.ofExcept_bind]
      rfl

/-- The node of a page: the set first, and then the options that are set. -/
def pageNode : Except BuildError Expr := do
  let operand ← set.normalize "paginate"
  let fields ← Argument.normalizeFields "paginate"
    ((pageSettings calls).map fun setting => (setting.1.name, setting.2))
  return .operation "paginate" operand fields

theorem build_pageOperands :
    paginate.build numbering (pageOperands set calls) = Build.ofExcept (pageNode set calls) := by
  have hslots := normalizeSlots_pageOperands set calls numbering PageOption.all
  have hsettings : (pageSettings calls).map (fun setting => (setting.1.name, setting.2)) =
      PageOption.all.filterMap fun option => (option.last? calls).map (option.name, ·) := by
    simp only [pageSettings, List.map_filterMap, Option.map_map, Function.comp_def]
  have hbuild : paginate.build numbering (pageOperands set calls) =
      Form.buildOperation numbering "paginate" (pageOperands set calls) .value
        (PageOption.all.map fun option => .optionalValue option.name) := rfl
  rw [hbuild, Form.buildOperation, hslots, Operands.normalizeAt, field_pageOperands, pageNode,
    hsettings]
  simp only [Build.ofExcept_bind]
  rfl

end

section

variable {set : Argument} {calls : List (PageOption × Argument)}

theorem pageNode_ok_iff {page : Expr} :
    pageNode set calls = .ok page ↔ ∃ operand fields, page = .operation "paginate" operand fields ∧
      set.normalize "paginate" = .ok operand ∧
      List.Forall₂ (fun setting field => setting.1.name = field.1 ∧
        setting.2.normalize "paginate" = .ok field.2) (pageSettings calls) fields := by
  have hfields := fun fields => @Argument.normalizeFields_ok_iff "paginate"
    ((pageSettings calls).map fun setting => (setting.1.name, setting.2)) fields
  simp only [List.forall₂_map_left_iff] at hfields
  constructor
  · intro h
    obtain ⟨operand, hoperand, h⟩ := Argument.bind_ok h
    obtain ⟨fields, hsettings, h⟩ := Argument.bind_ok h
    cases h
    exact ⟨operand, fields, rfl, hoperand, (hfields fields).1 hsettings⟩
  · rintro ⟨operand, fields, rfl, hoperand, hsettings⟩
    rw [pageNode, hoperand, (hfields fields).2 hsettings]
    rfl

theorem pageNode_error_iff {error : BuildError} :
    pageNode set calls = .error error ↔ set.normalize "paginate" = .error error ∨
      (∃ operand, set.normalize "paginate" = .ok operand) ∧
      ∃ before setting after, pageSettings calls = before ++ setting :: after ∧
        (∀ s ∈ before, ∃ e, s.2.normalize "paginate" = .ok e) ∧
        setting.2.normalize "paginate" = .error error := by
  have hmapM : Argument.normalizeFields "paginate"
      ((pageSettings calls).map fun setting => (setting.1.name, setting.2)) = .error error ↔
      ∃ before setting after, pageSettings calls = before ++ setting :: after ∧
        (∀ s ∈ before, ∃ e, s.2.normalize "paginate" = .ok e) ∧
        setting.2.normalize "paginate" = .error error := by
    rw [Argument.normalizeFields_eq_mapM, List.mapM_map, Argument.mapM_error_iff]
    simp only [Function.comp_def, Argument.map_ok_iff, Argument.map_error_iff]
  rw [← hmapM]
  constructor
  · intro h
    rcases Argument.bind_error h with hset | ⟨operand, hoperand, h⟩
    · exact .inl hset
    · exact .inr ⟨⟨operand, hoperand⟩, Argument.map_error_iff.1 h⟩
  · rintro (hset | ⟨⟨operand, hoperand⟩, hsettings⟩)
    · rw [pageNode, hset]
      rfl
    · rw [pageNode, hoperand, hsettings]
      rfl

end

/-- The page of the options that calls leave is the page of the calls. It depends on the last call
for each option only. It has the set under its tag, and then exactly the options that are set, in
the order of the wire. The set decides the error if it fails, and otherwise the first option in this
order whose last argument fails. -/
theorem page_options_decide (numbering : Numbering) (set : Argument)
    (calls : List (PageOption × Argument)) (bound : Nat) :
    paginate.build numbering (pageOperands set (PageOptions.ofCalls calls).settings) bound =
      paginate.build numbering (pageOperands set calls) bound ∧
    (∀ calls' : List (PageOption × Argument),
      (∀ option : PageOption, option.last? calls' = option.last? calls) →
      paginate.build numbering (pageOperands set calls') bound =
        paginate.build numbering (pageOperands set calls) bound) ∧
    (∀ earlier overridden between later rest,
      calls = earlier ++ overridden :: between ++ later :: rest → overridden.1 = later.1 →
      paginate.build numbering (pageOperands set (earlier ++ between ++ later :: rest)) bound =
        paginate.build numbering (pageOperands set calls) bound) ∧
    (∀ page atEnd, paginate.build numbering (pageOperands set calls) bound = .ok page atEnd ↔
      atEnd = bound ∧ ∃ operand fields, page = .operation "paginate" operand fields ∧
        set.normalize "paginate" = .ok operand ∧
        List.Forall₂ (fun setting field => setting.1.name = field.1 ∧
          setting.2.normalize "paginate" = .ok field.2) (pageSettings calls) fields) ∧
    (∀ stop atEnd, paginate.build numbering (pageOperands set calls) bound = .error stop atEnd ↔
      atEnd = bound ∧ ∃ error, stop = .failed error ∧
        (set.normalize "paginate" = .error error ∨
          (∃ operand, set.normalize "paginate" = .ok operand) ∧
          ∃ before setting after, pageSettings calls = before ++ setting :: after ∧
            (∀ s ∈ before, ∃ e, s.2.normalize "paginate" = .ok e) ∧
            setting.2.normalize "paginate" = .error error)) := by
  have hdepends : ∀ calls' : List (PageOption × Argument),
      (∀ option : PageOption, option.last? calls' = option.last? calls) →
      paginate.build numbering (pageOperands set calls') bound =
        paginate.build numbering (pageOperands set calls) bound := by
    intro calls' hlast
    have hsettings : pageSettings calls' = pageSettings calls := by simp only [pageSettings, hlast]
    rw [build_pageOperands, build_pageOperands, pageNode, pageNode, hsettings]
  refine ⟨hdepends _ fun option => ?_, hdepends, ?_, ?_, ?_⟩
  · rw [PageOptions.last?_settings, PageOptions.get_ofCalls]
  · intro earlier overridden between later rest hcalls hoption
    refine hdepends _ fun option => ?_
    rw [hcalls, PageOption.last?_overridden _ _ _ _ _ _ hoption]
  · intro page atEnd
    rw [build_pageOperands, Build.ofExcept_ok_iff, pageNode_ok_iff]
  · intro stop atEnd
    rw [build_pageOperands, Build.ofExcept_error_iff]
    simp only [pageNode_error_iff]

/-- A failed timestamp is overridden, and a null is set. With two more calls the cursor fails, which
stands before the events in a page. -/
theorem page_options_repeated :
    let set : Argument := .node (variableNode "set")
    let error : BuildError := .arity "add" 1 0
    let calls : List (PageOption × Argument) :=
      [(.ts, .failed error), (.before, .null), (.size, .literal (.integer 5)),
        (.ts, .literal (.integer 7)), (.size, .literal (.integer 10))]
    let failing := calls ++ [(.events, .function 1 fun _ => Build.throw "late"),
      (.after, .failed error)]
    paginate.build .byDepth (pageOperands set calls) 2 =
      .ok (.operation "paginate" (variableNode "set")
        [("size", .literal (.integer 10)), ("before", .null), ("ts", .literal (.integer 7))]) 2 ∧
    paginate.build .byDepth (pageOperands set (calls.drop 1)) 2 =
      paginate.build .byDepth (pageOperands set calls) 2 ∧
    paginate.build .byDepth (pageOperands set failing) 2 = .error (.failed error) 2 := by
  intro set error calls failing
  obtain ⟨-, -, hoverridden, hok, -⟩ := page_options_decide .byDepth set calls 2
  obtain ⟨-, -, -, -, herror⟩ := page_options_decide .byDepth set failing 2
  refine ⟨(hok _ 2).2 ?_, ?_, (herror _ 2).2 ?_⟩
  · refine ⟨rfl, _, _, rfl, rfl, ?_⟩
    exact .cons ⟨rfl, rfl⟩ (.cons ⟨rfl, rfl⟩ (.cons ⟨rfl, rfl⟩ .nil))
  · exact hoverridden [] (.ts, .failed error) [(.before, .null), (.size, .literal (.integer 5))]
      (.ts, .literal (.integer 7)) [(.size, .literal (.integer 10))] rfl rfl
  · refine ⟨rfl, error, rfl, .inr ⟨⟨_, rfl⟩, ?_⟩⟩
    refine ⟨[(.size, .literal (.integer 10))], (.after, .failed error), _, rfl, ?_, rfl⟩
    exact List.forall_mem_singleton.2 ⟨_, rfl⟩

end QueryTree
