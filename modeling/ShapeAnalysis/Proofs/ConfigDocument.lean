import ShapeAnalysis.Proofs.ConfigFormat

/-!
# Reading a written configuration

What a format presents field by field is read as settings that give everything, so nothing is
left to the preset or to the default policy.  Hence a configuration that is written and read
back is the configuration itself, if it is valid, and otherwise the error that validation gives
(`Config.read_write`).  This holds in every format that obeys the two laws, and in the format
of configuration documents among them.
-/

namespace ShapeAnalysis

namespace Settings

variable {F : DocumentFormat}

/-! ## Policies -/

/-- Reading the settings of a policy sets its flags one after another. -/
theorem policyFrom_cons {p q : Policy} {flag : String} {on : Bool} {n : F.Node}
    (hflag : p.setFlag? flag on = some q) (hn : F.bool? n = some on)
    (rest : List (String × F.Node)) :
    policyFrom F p ((flag, n) :: rest) = policyFrom F q rest := by
  rw [policyFrom, hn]
  simp [hflag]

/-- The flags of a policy say everything about it. -/
theorem policyFrom_flags (p q : Policy) {node : String × Bool → F.Node}
    (hnode : ∀ f ∈ p.flags, F.bool? (node f) = some f.2) :
    policyFrom F q (p.flags.map fun f => (f.1, node f)) = some p := by
  simp only [Policy.flags, List.forall_mem_cons, List.not_mem_nil, false_implies, implies_true,
    and_true] at hnode
  obtain ⟨h₁, h₂, h₃, h₄, h₅, h₆, h₇⟩ := hnode
  simp only [Policy.flags, List.map_cons, List.map_nil]
  rw [policyFrom_cons rfl h₁, policyFrom_cons rfl h₂, policyFrom_cons rfl h₃,
    policyFrom_cons rfl h₄, policyFrom_cons rfl h₅, policyFrom_cons rfl h₆,
    policyFrom_cons rfl h₇]
  rfl

theorem policy?_of_presents {n : F.Node} {p : Policy} (h : F.Presents n (.flags p.flags)) :
    policy? F n = some p := by
  obtain ⟨-, node, hentries, hnode⟩ := h
  have hkeys : (p.flags.map fun f => (f.1, node f)).map Prod.fst =
      ({} : Policy).flags.map Prod.fst := by
    rw [List.map_map]
    rfl
  have hnodup : ((({} : Policy).flags.map Prod.fst).filter fun name =>
      (({} : Policy).setFlag? name false).isSome).Nodup := by decide
  rw [policy?, hentries]
  simp only [Option.bind_eq_bind, Option.bind_some, hkeys]
  exact (if_pos hnodup).trans (policyFrom_flags p {} hnode)

/-! ## Settings -/

theorem preset?_of_presents {n : F.Node} {p : Preset} (h : F.Presents n (.choice p.name)) :
    preset? F n = some p := by
  rw [preset?, h.2]
  cases p <;> rfl

theorem join?_of_presents {n : F.Node} {m : JoinMode} (h : F.Presents n (.choice m.name)) :
    join? F n = some m := by
  rw [join?, h.2]
  cases m <;> rfl

/-- A node that stands for a field gives a value. -/
theorem isGiven?_of_presents {n : F.Node} {x : Field} (h : F.Presents n x) :
    F.isGiven? n = some true := by
  cases x <;> exact h.1

theorem field?_eq_some {α : Type} {read : F.Node → Option α} {given : List (String × F.Node)}
    {name : String} {n : F.Node} {x : Field} {a : α}
    (hfind : given.find? (·.1 == name) = some (name, n)) (hn : F.Presents n x)
    (hread : read n = some a) : field? F read given name = some (some a) := by
  simp [field?, hfind, isGiven?_of_presents hn, hread]

/-- The settings that a configuration gives are all of them. -/
def ofConfig (c : Config) : Settings :=
  ⟨some c.preset, some c.join, some c.cacheCapacity, some c.intra, some c.guard, some c.call,
    some c.ret⟩

theorem resolve_ofConfig (c : Config) : (ofConfig c).resolve = c := rfl

/-- The entries of a configuration, every field with its node. -/
def entriesOf (c : Config) (node : String × Field → F.Node) : List (String × F.Node) :=
  c.fields.map fun f => (f.1, node f)

/-- What a format presents as the fields of a configuration is read as its settings. -/
theorem ofNode?_of_lists {n : F.Node} {c : Config} (h : F.Lists n c.fields F.Presents) :
    ofNode? F n = some (ofConfig c) := by
  obtain ⟨node, hentries, hnode⟩ := h
  have hkeys : (entriesOf c node).map Prod.fst = names := by
    rw [entriesOf, List.map_map]
    rfl
  have hcheck : (names.all (names.contains ·) && decide names.Nodup) = true := by decide
  simp only [Config.fields, List.forall_mem_cons, List.not_mem_nil, false_implies, implies_true,
    and_true] at hnode
  obtain ⟨hpreset, hjoin, hcapacity, hintra, hguard, hcall, hret⟩ := hnode
  have hpreset' : field? F (preset? F) (entriesOf c node) "preset" = some (some c.preset) :=
    field?_eq_some rfl hpreset (preset?_of_presents hpreset)
  have hjoin' : field? F (join? F) (entriesOf c node) "join" = some (some c.join) :=
    field?_eq_some rfl hjoin (join?_of_presents hjoin)
  have hcapacity' : field? F F.nat? (entriesOf c node) "action_cache_capacity" =
      some (some c.cacheCapacity) := field?_eq_some rfl hcapacity hcapacity.2
  have hintra' : field? F (policy? F) (entriesOf c node) "intra" = some (some c.intra) :=
    field?_eq_some rfl hintra (policy?_of_presents hintra)
  have hguard' : field? F (policy? F) (entriesOf c node) "guard" = some (some c.guard) :=
    field?_eq_some rfl hguard (policy?_of_presents hguard)
  have hcall' : field? F (policy? F) (entriesOf c node) "call" = some (some c.call) :=
    field?_eq_some rfl hcall (policy?_of_presents hcall)
  have hret' : field? F (policy? F) (entriesOf c node) "ret" = some (some c.ret) :=
    field?_eq_some rfl hret (policy?_of_presents hret)
  have hentries' : F.entries? n = some (entriesOf c node) := hentries
  simp only [ofNode?, hentries', Option.bind_eq_bind, Option.bind_some, hkeys, hcheck, hpreset',
    hjoin', hcapacity', hintra', hguard', hcall', hret']
  rfl

end Settings

/-! ## Reading what was written -/

namespace Config

variable {F : DocumentFormat}

theorem settings_of_readsFields (hreads : F.ReadsFields) {c : Config}
    (hc : c.cacheCapacity < UInt64.size) :
    (F.read? c.toYaml).bind (Settings.ofNode? F) = some (.ofConfig c) := by
  obtain ⟨n, hn, hlists⟩ := hreads c hc
  rw [hn, Option.bind_some, Settings.ofNode?_of_lists hlists]

/-- A format that puts every field on a line and reads it back writes every configuration, and
gives it back if it is valid.  Otherwise it is refused for what validation finds.  Capacities
are numbers of 64 bits. -/
theorem read_write (hwrites : F.WritesFields) (hreads : F.ReadsFields) (c : Config)
    (hc : c.cacheCapacity < UInt64.size) :
    ∃ text, c.write F = .ok text ∧
      read F text =
        match c.validate with
        | .ok () => .ok c
        | .error e => .error e := by
  refine ⟨c.toYaml, by rw [write, hwrites c], ?_⟩
  rw [read, settings_of_readsFields hreads hc]
  simp only [Settings.resolve_ofConfig]
  cases c.validate <;> rfl

/-- A thorough configuration with pointwise joins whose guards stay unfocused.  The preset
focuses everywhere. -/
def unfocusedGuards : Config :=
  { ofPreset .thorough with
    join := .pointwise
    cacheCapacity := 12
    guard := { Policy.ofPreset .thorough .guard with focus := false } }

/-- In configuration documents the flag that differs from the preset survives, and a return
policy that coerces after focus is refused with its reason. -/
theorem read_write_unfocusedGuards :
    Yaml.format.WritesFields ∧ Yaml.format.ReadsFields ∧
      (∃ text, unfocusedGuards.write Yaml.format = .ok text ∧ ofYaml text = .ok unfocusedGuards) ∧
      ∃ text, (unfocusedGuards.setPolicy .ret { coerceAfterFocus := true }).write Yaml.format =
          .ok text ∧
        ofYaml text =
          .error (.policy "return" "coerce after focus must be off for return actions") :=
  ⟨Yaml.writesFields_format, Yaml.readsFields_format,
    read_write Yaml.writesFields_format Yaml.readsFields_format unfocusedGuards (by decide),
    read_write Yaml.writesFields_format Yaml.readsFields_format
      (unfocusedGuards.setPolicy .ret { coerceAfterFocus := true }) (by decide)⟩

end Config

end ShapeAnalysis
