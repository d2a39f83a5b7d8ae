import DelegatedAuthority.Proofs.Records
import DelegatedAuthority.Proofs.TableTexts
/-!
The configurations that JSON texts give.

A text matters by what it gives to the fields of a configuration, so that a configuration has many
texts and loads from all of them alike. The text it is written to is one of these.
-/
namespace DelegatedAuthority

namespace Json

variable {names : List String} {value : Json}

theorem word?_word (n : UInt64) : (word n).word? = some n := by
  have lt : n.toNat < UInt64.size := n.toNat_lt
  rw [word, word?, if_pos lt, UInt64.ofNat_toNat]

theorem texts?_strings (texts : List String) : (array (texts.map .string)).texts? = some texts := by
  rw [texts?, elements?, Option.bind_eq_bind, Option.bind_some, List.mapM_map]
  exact List.mapM_pure.trans (congrArg some (List.map_id texts))

/-- What is given for a field of which the default is meant where nothing is. -/
def IsGiven {α : Type} (fits : α → Json → Prop) (default a : α) : Option Json → Prop
  | none => a = default
  | some value => fits a value

theorem IsGiven.orDefault {α : Type} {fits : α → Json → Prop} {default a : α} {o : Option Json}
    {read : Json → Option α} (h : IsGiven fits default a o)
    (reads : ∀ a value, fits a value → read value = some a) :
    Json.orDefault read default o = some a := by
  cases o with
  | none => exact congrArg some (Eq.symm h)
  | some value => exact reads a value h

end Json

namespace Limits

variable {limits : Limits} {value : Json}

/-- A record that gives these limits. -/
def GivenBy (limits : Limits) (value : Json) : Prop :=
  ∃ depth visits, Json.IsRecord fieldNames value [depth, visits] ∧
    Json.IsGiven (fun n v => v = .word n) 16 limits.maxDepth depth ∧
    Json.IsGiven (fun n v => v = .word n) 256 limits.maxVisits visits

theorem ofJson?_eq_some_iff : ofJson? value = some limits ↔ ∃ depth visits,
    value.fields? fieldNames = some [depth, visits] ∧
    Json.orDefault Json.word? 16 depth = some limits.maxDepth ∧
    Json.orDefault Json.word? 256 visits = some limits.maxVisits := by
  simp only [ofJson?, Option.bind_eq_bind, Option.bind_eq_some_iff, Option.pure_def]
  constructor
  · rintro ⟨given, found, read⟩
    split at read
    · obtain ⟨depth, isDepth, read⟩ := Option.bind_eq_some_iff.mp read
      obtain ⟨visits, isVisits, same⟩ := Option.bind_eq_some_iff.mp read
      cases same
      exact ⟨_, _, found, isDepth, isVisits⟩
    · cases read
  · rintro ⟨depth, visits, found, isDepth, isVisits⟩
    refine ⟨_, found, ?_⟩
    simp [isDepth, isVisits]

theorem GivenBy.ofJson? (h : limits.GivenBy value) : Limits.ofJson? value = some limits := by
  obtain ⟨depth, visits, record, isDepth, isVisits⟩ := h
  have reads : ∀ n v, v = Json.word n → v.word? = some n := fun n _ eq => eq ▸ Json.word?_word n
  exact ofJson?_eq_some_iff.mpr ⟨depth, visits, record.fields? (by decide), isDepth.orDefault reads,
    isVisits.orDefault reads⟩

theorem givenBy_toJson (limits : Limits) : limits.GivenBy limits.toJson :=
  ⟨some (.word limits.maxDepth), some (.word limits.maxVisits), .object rfl (.refl _), rfl, rfl⟩

theorem ofJson?_of_misgiven (h : Json.Misgiven fieldNames value) : ofJson? value = none := by
  refine Option.eq_none_iff_forall_ne_some.mpr fun limits read => ?_
  obtain ⟨depth, visits, found, isDepth, isVisits⟩ := ofJson?_eq_some_iff.mp read
  rcases List.mem_pair.mp (h.null_of_fields? found) with rfl | rfl
  · cases isDepth
  · cases isVisits

end Limits

namespace Config

variable {config : Config} {value : Json} {text : String}

/-- A record that gives this configuration. Only the audience is never left out. -/
def GivenBy (config : Config) (value : Json) : Prop :=
  ∃ abilities limits directOnly,
    Json.IsRecord fieldNames value
      [some (.string config.audience), abilities, limits, directOnly] ∧
    Json.IsGiven AbilityTable.GivenBy .standard config.abilities abilities ∧
    Json.IsGiven Limits.GivenBy ⟨16, 256⟩ config.limits limits ∧
    Json.IsGiven (fun texts v => v = .array (texts.map .string)) [Ability.blobRemove]
      config.directOnly directOnly

theorem ofJson?_eq_some_iff : ofJson? value = some config ↔
    ∃ audience abilities limits directOnly,
      value.fields? fieldNames = some [some audience, abilities, limits, directOnly] ∧
      audience.text? = some config.audience ∧
      Json.orDefault AbilityTable.ofJson? .standard abilities = some config.abilities ∧
      Json.orDefault Limits.ofJson? ⟨16, 256⟩ limits = some config.limits ∧
      Json.orDefault Json.texts? [Ability.blobRemove] directOnly = some config.directOnly := by
  simp only [ofJson?, Option.bind_eq_bind, Option.bind_eq_some_iff, Option.pure_def]
  constructor
  · rintro ⟨given, found, read⟩
    split at read
    · obtain ⟨text, isAudience, read⟩ := Option.bind_eq_some_iff.mp read
      obtain ⟨table, isAbilities, read⟩ := Option.bind_eq_some_iff.mp read
      obtain ⟨bounds, isLimits, read⟩ := Option.bind_eq_some_iff.mp read
      obtain ⟨held, isDirectOnly, same⟩ := Option.bind_eq_some_iff.mp read
      cases same
      exact ⟨_, _, _, _, found, isAudience, isAbilities, isLimits, isDirectOnly⟩
    · cases read
  · rintro ⟨audience, abilities, limits, directOnly, found, isAudience, isAbilities, isLimits,
      isDirectOnly⟩
    refine ⟨_, found, ?_⟩
    simp [isAudience, isAbilities, isLimits, isDirectOnly]

theorem GivenBy.ofJson? (h : config.GivenBy value) : Config.ofJson? value = some config := by
  obtain ⟨abilities, limits, directOnly, record, isAbilities, isLimits, isDirectOnly⟩ := h
  refine ofJson?_eq_some_iff.mpr ⟨_, abilities, limits, directOnly, record.fields? (by decide), rfl,
    isAbilities.orDefault fun _ _ => AbilityTable.GivenBy.ofJson?,
    isLimits.orDefault fun _ _ => Limits.GivenBy.ofJson?, isDirectOnly.orDefault ?_⟩
  rintro texts _ rfl
  exact Json.texts?_strings texts

theorem givenBy_toJson (config : Config) : config.GivenBy config.toJson :=
  ⟨some config.abilities.toJson, some config.limits.toJson,
    some (.array (config.directOnly.map .string)), .object rfl (.refl _),
    AbilityTable.givenBy_toJson _, Limits.givenBy_toJson _, rfl⟩

theorem load_of_ofJson? (isText : Json.IsText text value) (read : ofJson? value = some config) :
    load text = config.validate.map fun _ => config := by
  simp only [load, isText.parse?, ofJson, read]
  cases config.validate <;> rfl

theorem load_unreadable (isText : Json.IsText text value) (unread : ofJson? value = none) :
    load text = .error .unreadable := by
  simp only [load, isText.parse?, ofJson, unread]

/-- What a configuration cannot be read from: what is no record of its fields, what has no
audience, and what gives such limits. -/
inductive Misgiven : Json → Prop
  | record {value : Json} : Json.Misgiven fieldNames value → Misgiven value
  | noAudience {members : List (String × Json)} :
      (∀ member ∈ members, member.1 ≠ "audience") → Misgiven (.object members)
  | noElement : Misgiven (.array [])
  | limitsMember {members : List (String × Json)} {limits : Json} :
      ("limits", limits) ∈ members → Json.Misgiven Limits.fieldNames limits →
      Misgiven (.object members)
  | limitsElement {audience abilities limits : Json} {more : List Json} :
      Json.Misgiven Limits.fieldNames limits →
      Misgiven (.array (audience :: abilities :: limits :: more))

theorem Misgiven.ofJson? (h : Misgiven value) : Config.ofJson? value = none := by
  refine Option.eq_none_iff_forall_ne_some.mpr fun config read => ?_
  obtain ⟨audience, abilities, limits, directOnly, found, isAudience, isAbilities, isLimits,
    isDirectOnly⟩ := ofJson?_eq_some_iff.mp read
  cases h with
  | record misgiven =>
    have null := misgiven.null_of_fields? found
    simp only [List.mem_cons, List.not_mem_nil, or_false, Option.some.injEq] at null
    rcases null with rfl | rfl | rfl | rfl
    · cases isAudience
    · cases isAbilities
    · cases isLimits
    · cases isDirectOnly
  | noAudience absent =>
    have values := List.forall₂_cons.mp (Json.fields?_object_eq_some_iff.mp found)
    have here : audience ∈ (some audience).toList := Option.mem_toList.mpr rfl
    rw [← values.1] at here
    exact absent _ (Fields.mem_values_iff.mp here) rfl
  | noElement => cases found
  | limitsMember member misgiven =>
    obtain ⟨_, _, values, _⟩ := by
      simpa only [fieldNames, List.forall₂_cons] using Json.fields?_object_eq_some_iff.mp found
    have here := Fields.mem_values_iff.mpr member
    rw [values] at here
    cases Option.mem_toList.mp here
    rw [Json.orDefault, Limits.ofJson?_of_misgiven misgiven] at isLimits
    cases isLimits
  | limitsElement misgiven =>
    rw [Json.fields?] at found
    split at found
    · have third := congrArg (fun given => given[2]?) (Option.some.inj found)
      cases Option.some.inj third
      rw [Json.orDefault, Limits.ofJson?_of_misgiven misgiven] at isLimits
      cases isLimits
    · cases found

/-- Loading a text gives the configuration that the values of its fields give, or what is wrong with
that, and nothing else in the text counts. Where there is no such configuration the text is
unreadable, whatever else might be wrong. -/
theorem load_fields :
    (∀ (text : String) (value : Json) (config : Config), Json.IsText text value →
      config.GivenBy value → load text = config.validate.map fun _ => config) ∧
    ∀ (text : String) (value : Json), Json.IsText text value → Misgiven value →
      load text = .error .unreadable := by
  constructor
  · intro text value config isText given
    exact load_of_ofJson? isText given.ofJson?
  · intro text value isText misgiven
    exact load_unreadable isText misgiven.ofJson?

/-- An unknown name twice, an array for the limits that leaves one out, no table, and a list of
direct-only abilities that is empty. -/
def scattered : Json :=
  .object [("x", .null), ("limits", .array [.word 3]), ("direct_only", .array []),
    ("x", .illFormed), ("audience", .string "a")]

theorem scattered_load_fields :
    load "\x7b\"x\":null,\"limits\":[3],\"direct_only\":[],\"x\":\"\\ud800\",\"audience\":\"a\"\x7d" =
      .ok ⟨"a", .standard, ⟨3, 256⟩, []⟩ ∧ load "[\"\",null]" = .error .unreadable := by
  constructor
  · have given : GivenBy ⟨"a", .standard, ⟨3, 256⟩, []⟩ scattered := by
      refine ⟨none, some (.array [.word 3]), some (.array []), .object rfl ?_, rfl, ?_, rfl⟩
      · exact List.perm_append_singleton ("audience", Json.string "a")
          [("limits", Json.array [.word 3]), ("direct_only", Json.array [])]
      · have omitted : [some (.word 3), none] = [Json.word 3].map some ++ List.replicate 1 none :=
          rfl
        exact ⟨some (.word 3), none, .array rfl omitted, rfl, rfl⟩
    exact (load_fields.1 _ scattered _ (Json.isText_render scattered) given).trans (by decide)
  · have isText := Json.isText_render (.array [.string "", .null])
    exact load_fields.2 _ _ isText (.record (.nullElement (by simp)))

/-- A valid configuration or table comes back from the text it is written to. -/
theorem load_render :
    (∀ config : Config, config.validate = .ok () → load config.render = .ok config) ∧
    ∀ table : AbilityTable, table.validate = .ok () → AbilityTable.load table.render = .ok table := by
  constructor
  · intro config valid
    rw [render, load_of_ofJson? (Json.isText_render _) config.givenBy_toJson.ofJson?, valid]
    rfl
  · intro table valid
    have isText := Json.isText_render table.toJson
    rw [AbilityTable.render, AbilityTable.load_of_givenBy isText table.givenBy_toJson, valid]
    rfl

/-- Quotes, backslashes and control characters, an operation but no direct-only ability, and limits
at both ends of their range. -/
def unusual : Config :=
  ⟨"did:\"\\\x01\n", .ofList [("\"\x1f", "tlog/\\\t")], ⟨0, 18446744073709551615⟩, []⟩

theorem unusual_load_render : load unusual.render = .ok unusual ∧
    AbilityTable.load unusual.abilities.render = .ok unusual.abilities ∧
    AbilityTable.load AbilityTable.empty.render = .ok .empty :=
  ⟨load_render.1 unusual (by decide), load_render.2 unusual.abilities (by decide),
    load_render.2 .empty rfl⟩

end Config

end DelegatedAuthority
