import Mathlib.Data.Nat.Find
import DeviceTwin.Proofs.Conversion.Devices
import DeviceTwin.Proofs.Descriptor.DepthCap
import DeviceTwin.Proofs.Descriptor.Termination

/-!
The cap on the depth in a conversion. A document has a depth of its own; caps below it are reported,
and all others are the same.
-/
namespace DeviceTwin.Conversion

variable {scope scope' : Scope} {options : Options} {definitions devices : List (String × Json)}
  {v : Violation} {cap cap' : Nat}

/-- One of the devices has this descriptor. -/
def DescribedBy (devices : List (String × Json)) (descriptor : Json) : Prop :=
  ∃ code device, (code, device) ∈ devices ∧ Device.DescribedBy device descriptor

def violations (c : Conversion) : List Violation := c.findings.map (·.violation)

theorem ofDevice_congr {code : String} {device : Json}
    (h : ∀ descriptor, Device.DescribedBy device descriptor →
      Descriptor.read scope' descriptor = Descriptor.read scope descriptor) :
    ofDevice scope' { options with maxDepth := cap } code device =
      ofDevice scope options code device := by
  have hread : Device.read scope' { options with maxDepth := cap } device =
      Device.read scope options device := Device.read_congr h
  simp only [ofDevice, hread, Device.assemble_maxDepth]

theorem ofDevices_congr
    (h : ∀ descriptor, DescribedBy devices descriptor →
      Descriptor.read scope' descriptor = Descriptor.read scope descriptor) :
    ofDevices scope' { options with maxDepth := cap } devices =
      ofDevices scope options devices := by
  induction devices with
  | nil => rfl
  | cons entry rest ih =>
    obtain ⟨code, device⟩ := entry
    have hhead : ofDevice scope' { options with maxDepth := cap } code device =
        ofDevice scope options code device :=
      ofDevice_congr fun descriptor hd => h descriptor ⟨code, device, List.mem_cons_self, hd⟩
    have htail := ih fun descriptor ⟨code', device', hm, hd⟩ =>
      h descriptor ⟨code', device', List.mem_cons_of_mem _ hm, hd⟩
    rw [ofDevices, ofDevices, hhead, htail]

theorem mem_violations_ofDevice {code : String} {device : Json} :
    v ∈ (ofDevice scope options code device).violations ↔
      v ∈ (Device.read scope options device).violations := by
  have hfindings : (ofDevice scope options code device).violations =
      (((Device.read scope options device).within code).within "devices").violations := rfl
  rw [hfindings, Noted.violations_within, Noted.violations_within]

/-- A limit found in a conversion comes from reading a descriptor of one of the devices. -/
theorem mem_violations_ofDevices (hv : v.isLimit = true) :
    v ∈ (ofDevices scope options devices).violations ↔
      ∃ descriptor, DescribedBy devices descriptor ∧
        v ∈ (Descriptor.read scope descriptor).violations := by
  induction devices with
  | nil => simp [ofDevices, violations, DescribedBy]
  | cons entry rest ih =>
    obtain ⟨code, device⟩ := entry
    have happend : (ofDevices scope options ((code, device) :: rest)).violations =
        (ofDevice scope options code device).violations ++
          (ofDevices scope options rest).violations := List.map_append
    rw [happend, List.mem_append, mem_violations_ofDevice, Device.mem_violations_read hv, ih]
    constructor
    · rintro (⟨descriptor, hd, h⟩ | ⟨descriptor, ⟨code', device', hm, hd⟩, h⟩)
      · exact ⟨descriptor, ⟨code, device, List.mem_cons_self, hd⟩, h⟩
      · exact ⟨descriptor, ⟨code', device', List.mem_cons_of_mem _ hm, hd⟩, h⟩
    · rintro ⟨descriptor, ⟨code', device', hm, hd⟩, h⟩
      rcases List.mem_cons.mp hm with heq | hm
      · cases heq
        exact Or.inl ⟨descriptor, hd, h⟩
      · exact Or.inr ⟨descriptor, ⟨code', device', hm, hd⟩, h⟩

/-- Under this cap every descriptor of the devices is read in full. -/
def Enough (definitions devices : List (String × Json)) (cap : Nat) : Prop :=
  ∀ descriptor, DescribedBy devices descriptor →
    Descriptor.Kept { definitions, maxDepth := cap } (.root descriptor)

theorem extends_of_le (h : cap ≤ cap') : Scope.Extends { definitions, maxDepth := cap' }
    { definitions, maxDepth := cap } := ⟨rfl, h⟩

theorem Enough.mono (h : Enough definitions devices cap) (hcap : cap ≤ cap') :
    Enough definitions devices cap' :=
  fun descriptor hd => (h descriptor hd).extend (extends_of_le hcap)

theorem enough_iff : Enough definitions devices cap ↔
    ∀ max, .depthExceeded max ∉
      (ofDevices { definitions, maxDepth := cap } options devices).violations := by
  simp only [Enough, Descriptor.kept_root_iff]
  constructor
  · intro h max hm
    obtain ⟨descriptor, hd, hm⟩ := (mem_violations_ofDevices rfl).mp hm
    exact h descriptor hd max hm
  · exact fun h descriptor hd max hm =>
      h max ((mem_violations_ofDevices rfl).mpr ⟨descriptor, hd, hm⟩)

/-- The bound on the depth of readings is enough. -/
theorem exists_enough (definitions devices : List (String × Json)) :
    ∃ cap, Enough definitions devices cap := by
  refine ⟨(definitions.length + 1) *
    (max (Json.nestingOfMembers devices) (Json.nestingOfMembers definitions) + 1), ?_⟩
  rintro descriptor ⟨code, device, hm, hd⟩
  rw [Descriptor.kept_root_iff]
  intro max hin
  refine Descriptor.depthExceeded_not_mem_read ?_ max
    ((Descriptor.mem_violations_complete rfl).mp hin)
  have := hd.nesting_lt
  have := Json.nesting_le_nestingOfMembers hm
  exact Nat.mul_le_mul_left _ (by simp only [Scope.nesting]; omega)

/-- A cap that is enough gives the same conversion as every larger one. -/
theorem Enough.ofDevices_eq (h : Enough definitions devices cap) (hcap : cap ≤ cap') :
    ofDevices { definitions, maxDepth := cap' } { options with maxDepth := cap' } devices =
      ofDevices { definitions, maxDepth := cap } options devices :=
  ofDevices_congr fun descriptor hd => (h descriptor hd).read_eq (extends_of_le hcap)

/-- Under caps that are enough, readings stay within all of them. -/
theorem Enough.depth_le (h : Enough definitions devices cap) (hcap : cap ≤ cap')
    {descriptor : Json} {call : Descriptor.Call} (hd : DescribedBy devices descriptor)
    (hr : Descriptor.Reached { definitions, maxDepth := cap' } (.root descriptor) call) :
    call.depth ≤ cap :=
  ((h descriptor hd).reached (extends_of_le hcap) hr).depth_le

/-- If no reading goes deeper than a smaller cap, that is enough too. -/
theorem Enough.of_depth_le (h : Enough definitions devices cap') (hcap : cap ≤ cap')
    (hdepth : ∀ descriptor call, DescribedBy devices descriptor →
      Descriptor.Reached { definitions, maxDepth := cap' } (.root descriptor) call →
      call.depth ≤ cap) : Enough definitions devices cap :=
  fun descriptor hd => (h descriptor hd).of_reached_le (extends_of_le hcap)
    fun call hr => hdepth descriptor call hd hr

/-- There is a least cap that is enough. -/
theorem exists_enough_iff_le (definitions devices : List (String × Json)) :
    ∃ depth, ∀ cap, Enough definitions devices cap ↔ depth ≤ cap := by
  classical
  have hexists := exists_enough definitions devices
  exact ⟨Nat.find hexists, fun cap =>
    ⟨fun h => Nat.find_min' hexists h, fun h => (Nat.find_spec hexists).mono h⟩⟩

/-- Readings go as deep as the least cap that is enough. -/
theorem exists_reached_of_least {depth : Nat}
    (h : ∀ cap, Enough definitions devices cap ↔ depth ≤ cap) (hpos : 0 < depth)
    (hcap : depth ≤ cap) :
    ∃ descriptor call, DescribedBy devices descriptor ∧
      Descriptor.Reached { definitions, maxDepth := cap } (.root descriptor) call ∧
      call.depth = depth := by
  by_cases hdeep : ∃ descriptor call, DescribedBy devices descriptor ∧
      Descriptor.Reached { definitions, maxDepth := cap } (.root descriptor) call ∧
      depth ≤ call.depth
  · obtain ⟨descriptor, call, hd, hr, hle⟩ := hdeep
    have := ((h depth).mpr (Nat.le_refl _)).depth_le hcap hd hr
    exact ⟨descriptor, call, hd, hr, by omega⟩
  · -- Otherwise the next smaller cap would be enough.
    have hless : Enough definitions devices (depth - 1) := by
      apply ((h cap).mpr hcap).of_depth_le (by omega)
      intro descriptor call hd hr
      have : ¬ depth ≤ call.depth := fun hle => hdeep ⟨descriptor, call, hd, hr, hle⟩
      omega
    have := (h _).mp hless
    omega

theorem code_eq_depthExceeded_iff : v.code = "S013" ↔ ∃ max, v = .depthExceeded max := by
  cases v <;> simp [Violation.code]

theorem exists_diagnostic_iff {c : Conversion} :
    (∃ d ∈ c.diagnostics, d.violation.code = "S013") ↔
      ∃ max, .depthExceeded max ∈ c.violations := by
  simp only [diagnostics, violations, List.mem_map, exists_exists_and_eq_and, Finding.diagnostic,
    code_eq_depthExceeded_iff]
  constructor
  · rintro ⟨finding, hm, max, h⟩
    exact ⟨max, finding, hm, h⟩
  · rintro ⟨max, finding, hm, h⟩
    exact ⟨finding, hm, max, h⟩

/-- `IsDepth document definitions devices depth`: this is how deep the readings of the document
go. -/
structure IsDepth (document : Json) (definitions devices : List (String × Json)) (depth : Nat) :
    Prop where
  /-- A conversion reports its cap exactly if that is smaller. -/
  exceeded_iff : ∀ options, ∃ c, ofDocument options document = .ok c ∧
    ((∃ d ∈ c.diagnostics, d.violation.code = "S013") ↔ options.maxDepth < depth)
  /-- All other caps give the same conversion. -/
  same : ∀ options cap, depth ≤ options.maxDepth → depth ≤ cap →
    ofDocument { options with maxDepth := cap } document = ofDocument options document
  /-- Where nothing is cut off, no call is deeper. -/
  depth_le : ∀ cap, depth ≤ cap → ∀ descriptor call, DescribedBy devices descriptor →
    Descriptor.Reached { definitions, maxDepth := cap } (.root descriptor) call →
    call.depth ≤ depth
  /-- Some call is as deep. -/
  attained : ∀ cap, depth ≤ cap → 0 < depth → ∃ descriptor call, DescribedBy devices descriptor ∧
    Descriptor.Reached { definitions, maxDepth := cap } (.root descriptor) call ∧
    call.depth = depth

/-- Every document with definitions and devices has a depth. -/
theorem exists_isDepth (document : Json) (definitions devices : List (String × Json))
    (hdefs : rootMember document "definitions" = .ok definitions)
    (hdevices : rootMember document "devices" = .ok devices) :
    ∃ depth, IsDepth document definitions devices depth := by
  obtain ⟨depth, hdepth⟩ := exists_enough_iff_le definitions devices
  have henough := (hdepth depth).mpr (Nat.le_refl _)
  refine ⟨depth, fun options => ?_, fun options cap hoptions hcap => ?_,
    fun cap hcap descriptor call hd hr => henough.depth_le hcap hd hr,
    fun cap hcap hpos => exists_reached_of_least hdepth hpos hcap⟩
  · refine ⟨_, ofDocument_eq hdefs hdevices options, ?_⟩
    rw [exists_diagnostic_iff, ← not_iff_not, not_exists, ← enough_iff, Nat.not_lt, hdepth]
  · have hlarge : ofDevices { definitions, maxDepth := cap } { options with maxDepth := cap }
        devices = ofDevices { definitions, maxDepth := depth } options devices :=
      henough.ofDevices_eq hcap
    have hgiven : ofDevices { definitions, maxDepth := options.maxDepth } options devices =
        ofDevices { definitions, maxDepth := depth } options devices :=
      henough.ofDevices_eq hoptions
    rw [ofDocument_eq hdefs hdevices, ofDocument_eq hdefs hdevices, hlarge, hgiven]

/-- A definition that refers to itself from inside. -/
def loopDefinitions : List (String × Json) :=
  [("loop", .obj [("type", .str "array"), ("items", .obj [("$ref", .str "#/definitions/loop")])])]

def loopDevices : List (String × Json) :=
  [("0x0130", .obj [("elProperties", .obj [("0x80", .obj [("data",
    .obj [("$ref", .str "#/definitions/loop")])])])])]

def loopDocument : Json :=
  .obj [("definitions", .obj loopDefinitions), ("devices", .obj loopDevices)]

/-- The reference is followed once, and the items are one level further down. -/
theorem isDepth_loop :
    rootMember loopDocument "definitions" = .ok loopDefinitions ∧
      rootMember loopDocument "devices" = .ok loopDevices ∧
      IsDepth loopDocument loopDefinitions loopDevices 2 := by
  have hdefs : rootMember loopDocument "definitions" = .ok loopDefinitions := rfl
  have hdevices : rootMember loopDocument "devices" = .ok loopDevices := rfl
  refine ⟨hdefs, hdevices, ?_⟩
  obtain ⟨depth, h⟩ := exists_isDepth loopDocument loopDefinitions loopDevices hdefs hdevices
  have hone : 1 < depth := by
    obtain ⟨c, hc, hiff⟩ := h.exceeded_iff { maxDepth := 1 }
    rw [ofDocument_eq hdefs hdevices] at hc
    cases hc
    exact hiff.mp (by decide)
  have htwo : ¬ 2 < depth := by
    obtain ⟨c, hc, hiff⟩ := h.exceeded_iff { maxDepth := 2 }
    rw [ofDocument_eq hdefs hdevices] at hc
    cases hc
    exact fun hlt => absurd (hiff.mpr hlt) (by decide)
  obtain rfl : depth = 2 := by omega
  exact h

end DeviceTwin.Conversion
