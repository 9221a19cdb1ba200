import DeviceTwin.Proofs.Descriptor.Inlining
import DeviceTwin.Proofs.Json.DistinctKeys

/-!
Circular references are reported on cycles only. The names in use form a chain: from each of them
the definitions lead to whatever the descriptor at hand refers to, so a name that is met again leads
to itself.
-/
namespace DeviceTwin.Descriptor

/-- A reference to the definition stands somewhere in the value. -/
def Mentions (value : Json) (name : String) : Prop :=
  ∃ members, (Json.obj members).Within value ∧
    ("$ref", .str ("#/definitions/" ++ name)) ∈ members

/-- The edges of the reference graph: the first definition refers to the second, from any depth. -/
def DependsOn (definitions : List (String × Json)) (a b : String) : Prop :=
  ∃ value, definitions.lookup a = some value ∧ Mentions value b

/-- The definition leads back to itself over one or more references. -/
def OnCycle (definitions : List (String × Json)) (name : String) : Prop :=
  Relation.TransGen (DependsOn definitions) name name

/-- Every name in use leads to each definition that the descriptor refers to. -/
def Chained (definitions : List (String × Json)) (active : List String) (descriptor : Json) :
    Prop :=
  ∀ a ∈ active, ∀ b, Mentions descriptor b → Relation.TransGen (DependsOn definitions) a b

/-- The reference names a definition that is on a cycle. -/
def ReportsCycle (definitions : List (String × Json)) (reference : String) : Prop :=
  ∃ name, reference = "#/definitions/" ++ name ∧ OnCycle definitions name

/-- The level below reports circular references on cycles only. -/
def BelowReportsCycles (scope : Scope) (below : Option Application) : Prop :=
  ∀ f, below = some f → ∀ active descriptor o, Chained scope.definitions active descriptor →
    ∀ reference, .circularReference reference ∈ (f active descriptor o).violations →
      ReportsCycle scope.definitions reference

variable {definitions members : List (String × Json)} {scope : Scope} {below : Option Application}
  {active : List String} {o : Outline} {key reference reported name : String}
  {value descriptor child target : Json}

theorem Mentions.of_within (h : Mentions child name) (hw : child.Within value) :
    Mentions value name := by
  obtain ⟨members, hmembers, href⟩ := h
  exact ⟨members, hmembers.trans hw, href⟩

theorem Chained.of_within (h : Chained definitions active value) (hw : child.Within value) :
    Chained definitions active child := by
  intro a ha b hb
  exact h a ha b (hb.of_within hw)

/-- The name of a definition goes on the chain where a descriptor refers to it. -/
theorem Chained.cons (h : Chained definitions active descriptor)
    (hmentions : Mentions descriptor name) (hdefined : definitions.lookup name = some target) :
    Chained definitions (name :: active) target := by
  intro a ha b hb
  have hedge : DependsOn definitions name b := ⟨target, hdefined, hb⟩
  rcases List.mem_cons.mp ha with rfl | ha
  · exact .single hedge
  · exact (h a ha name hmentions).tail hedge

theorem eq_append_of_definitionName? (h : definitionName? reference = some name) :
    reference = "#/definitions/" ++ name := by
  obtain ⟨hpre, hname⟩ := Option.ite_none_right_eq_some.mp h
  obtain ⟨rest, hrest⟩ := List.isPrefixOf_iff_prefix.mp hpre
  have htext : name.toList = rest := by
    rw [← Option.some.inj hname, ← hrest, List.drop_left, String.toList_ofList]
  have hlist : ("#/definitions/" ++ name).toList = referencePrefix ++ name.toList :=
    String.toList_append ..
  apply String.toList_inj.mp
  rw [hlist, htext, hrest]

theorem mentions_of_mem (hname : definitionName? reference = some name)
    (hm : ("$ref", .str reference) ∈ members) : Mentions (.obj members) name := by
  rw [eq_append_of_definitionName? hname] at hm
  exact ⟨members, .refl _, hm⟩

/-- A reference is circular if its name is in use, or it is followed to one that is. -/
theorem circular_or_follows (hk : Keyword.ofName? key = some .reference)
    (h : .circularReference reported ∈
      (takeReference scope below active o reference).violations) :
    (∃ name, reported = reference ∧ definitionName? reference = some name ∧ name ∈ active) ∨
      ∃ name target f, Follows scope active o key (.str reference) reference name target ∧
        below = some f ∧ .circularReference reported ∈
          (f (name :: active) target (o.noteReference reference)).violations := by
  unfold takeReference at h
  split at h
  · simp at h
  · next name hname =>
    split at h
    · simp at h
    · next target hdefined =>
      split at h
      · next hin =>
        have hreported : reported = reference := by simpa using h
        exact Or.inl ⟨name, hreported, hname, by simpa using hin⟩
      · next hin =>
        have hinactive : name ∉ active := by simpa using hin
        split at h
        · simp at h
        · simp at h
        · next f hkind =>
          right
          refine ⟨name, target, f, ⟨hk, rfl, hname, hdefined, hinactive, hkind⟩, rfl, ?_⟩
          simpa [Taken.violations, Noted.violations] using h

section Reading

variable (hbelow : BelowReportsCycles scope below)

include hbelow

theorem reportsCycle_of_readNested (hchain : Chained scope.definitions active descriptor)
    (h : .circularReference reported ∈
      (readNested scope below active descriptor).violations) :
    ReportsCycle scope.definitions reported := by
  cases below with
  | none => simp [readNested] at h
  | some f => exact hbelow f rfl active descriptor {} hchain _ ((mem_violations_complete rfl).mp h)

/-- A name in use that is referred to again is on a cycle; one that is not in use goes on the
chain. -/
theorem reportsCycle_of_takeReference (hchain : Chained scope.definitions active (.obj members))
    (hm : ("$ref", .str reference) ∈ members)
    (h : .circularReference reported ∈
      (takeReference scope below active o reference).violations) :
    ReportsCycle scope.definitions reported := by
  have hk : Keyword.ofName? "$ref" = some .reference := rfl
  rcases circular_or_follows hk h with
    ⟨name, rfl, hname, hin⟩ | ⟨name, target, f, hf, hsome, hfollowed⟩
  · have hcycle := hchain name hin name (mentions_of_mem hname hm)
    exact ⟨name, eq_append_of_definitionName? hname, hcycle⟩
  · have htarget := hchain.cons (mentions_of_mem hf.name_eq hm) hf.defined
    exact hbelow f hsome _ target _ htarget _ hfollowed

theorem reportsCycle_of_applyOver (hchain : Chained scope.definitions active descriptor)
    (h : .circularReference reported ∈ (applyOver scope below active descriptor o).violations) :
    ReportsCycle scope.definitions reported := by
  cases descriptor with
  | obj members =>
    obtain ⟨r, key, value, hvisit, hfound⟩ := mem_violations_applyOver_obj.mp h
    have hmember := hvisit.mem
    rcases (mem_violations_takeMember rfl).mp hfound with
      ⟨child, hchild, hnested⟩ | ⟨hk, reference, rfl, href⟩
    · have hwithin : child.Within (.obj members) :=
        (within_of_mem_inner hchild).trans (Json.Part.member hmember).within
      exact reportsCycle_of_readNested hbelow (hchain.of_within hwithin) hnested
    · have hkey : key = "$ref" := Keyword.ofName?_eq_some_iff.mp hk
      subst hkey
      exact reportsCycle_of_takeReference hbelow hchain hmember href
  | _ => simp [applyOver, Json.expectObject] at h

end Reading

/-- With the names in use on a chain, every level reports circular references on cycles only. -/
theorem belowReportsCycles (scope : Scope) (level : Nat) :
    BelowReportsCycles scope (some (apply scope level)) := by
  induction level with
  | zero =>
    rintro _ ⟨⟩ active descriptor o hchain reference h
    have hnone : BelowReportsCycles scope none := nofun
    exact reportsCycle_of_applyOver hnone hchain h
  | succ level ih =>
    rintro _ ⟨⟩ active descriptor o hchain reference h
    exact reportsCycle_of_applyOver ih hchain h

theorem code_eq_circularReference_iff {v : Violation} :
    v.code = "S012" ↔ ∃ reference, v = .circularReference reference := by
  cases v <;> simp [Violation.code]

/-- Reading a descriptor on its own starts an empty chain. -/
theorem reportsCycle_of_read
    (h : .circularReference reported ∈ (read scope descriptor).violations) :
    ReportsCycle scope.definitions reported := by
  have hchain : Chained scope.definitions [] descriptor := nofun
  exact belowReportsCycles scope scope.maxDepth _ rfl [] descriptor {} hchain reported
    ((mem_violations_complete rfl).mp h)

/-- A definition that is reported as circular is on a cycle of the reference graph. Where there are
no cycles nothing is, however often and wherever a definition is referred to. -/
theorem circular_definition_on_cycle (scope : Scope) (descriptor : Json) :
    (∀ name, (∃ f ∈ (read scope descriptor).findings,
        f.violation = .circularReference ("#/definitions/" ++ name)) →
      OnCycle scope.definitions name) ∧
    ((∀ name, ¬ OnCycle scope.definitions name) →
      ∀ f ∈ (read scope descriptor).findings, f.violation.code ≠ "S012") := by
  have hreport : ∀ f ∈ (read scope descriptor).findings, ∀ reference,
      f.violation = .circularReference reference →
        ReportsCycle scope.definitions reference := by
    intro f hf reference hv
    have hm : f.violation ∈ (read scope descriptor).violations := List.mem_map_of_mem hf
    rw [hv] at hm
    exact reportsCycle_of_read hm
  constructor
  · rintro name ⟨f, hf, hv⟩
    obtain ⟨other, heq, hcycle⟩ := hreport f hf _ hv
    have hname : some name = some other := by
      rw [← definitionName?_append name, heq, definitionName?_append]
    rwa [Option.some.inj hname]
  · intro hacyclic f hf hcode
    obtain ⟨reference, hv⟩ := code_eq_circularReference_iff.mp hcode
    obtain ⟨name, _, hcycle⟩ := hreport f hf reference hv
    exact hacyclic name hcycle

/-- Two definitions that refer to each other, one of them from inside of its items. -/
def mutualScope : Scope where
  definitions := [("list", .obj [("type", .str "array"), ("items", referenceTo "entry")]),
    ("entry", referenceTo "list")]
  maxDepth := 32

/-- A definition without references, and an object that refers to it twice. -/
def leafScope : Scope where
  definitions := [("leaf", .obj [("type", .str "level")])]
  maxDepth := 32

def twoLeaves : Json :=
  .obj [("type", .str "object"), ("properties", .arr [.obj [("element", referenceTo "leaf")],
    .obj [("element", referenceTo "leaf")]])]

theorem not_onCycle_leafScope (name : String) : ¬ OnCycle leafScope.definitions name := by
  intro hcycle
  obtain ⟨other, ⟨value, hlookup, members, hwithin, href⟩, -⟩ :=
    Relation.TransGen.head'_iff.mp hcycle
  cases List.mem_singleton.mp (mem_of_lookup hlookup)
  rcases Relation.ReflTransGen.cases_tail hwithin with heq | ⟨part, hpart, hlast⟩
  · cases heq
    simp at href
  · -- What stands further inside is a string, and has no members.
    cases hlast with
    | member hm =>
      cases List.mem_singleton.mp hm
      have hnesting := Json.Within.nesting_le hpart
      simp [Json.nesting] at hnesting

theorem circular_definition_on_cycle_mutual :
    (∃ f ∈ (read mutualScope (referenceTo "entry")).findings,
        f.violation = .circularReference ("#/definitions/" ++ "entry")) ∧
      OnCycle mutualScope.definitions "entry" ∧
      (∀ name, ¬ OnCycle leafScope.definitions name) ∧
      ∀ f ∈ (read leafScope twoLeaves).findings, f.violation.code ≠ "S012" := by
  have hfound : ∃ f ∈ (read mutualScope (referenceTo "entry")).findings,
      f.violation = .circularReference ("#/definitions/" ++ "entry") := by decide
  exact ⟨hfound, (circular_definition_on_cycle mutualScope (referenceTo "entry")).1 "entry" hfound,
    not_onCycle_leafScope,
    (circular_definition_on_cycle leafScope twoLeaves).2 not_onCycle_leafScope⟩

end DeviceTwin.Descriptor
