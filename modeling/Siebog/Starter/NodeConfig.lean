import Siebog.Lib.Traverse
import Siebog.Lib.Words

/-!
# Configuration of a node

A node is configured by a text: an address alone for a master, `name@address-master_address` for a
slave. `accepted_iff_reads_back` says that the nodes some text configures are those whose own text
configures them again, and that these are the nodes with trimmed parts that are not cut short by a
sign in them (`WellFormed`).

The program's arguments `name=value` set the node, the host of the database and the log level one
after another. `parseArgs_ok_iff` gives the configuration of a whole list of them: each is well
formed, and of those that set the same field the last one counts. What the program accepts, from its
arguments or from a file, is usable (`IsUsable`).
-/

set_option autoImplicit false

namespace Siebog.Starter

open Siebog.Lib Siebog.Lib.Utf16 Siebog.Lib.Words Siebog.Lib.Separator

section Model

/-- The sign before the address of the master. -/
def DASH : CodeUnit := unit '-'

/-- The sign after the name of a slave. -/
def AT : CodeUnit := unit '@'

/-- The sign between the name and the value of an argument. -/
def EQUALS : CodeUnit := unit '='

/-- The message of an `IllegalArgumentException`, if it has one. -/
abbrev IllegalArgument := Option Text

/-- Only a slave has a name and the address of its master. -/
inductive NodeInfo where
  | master (address : Text)
  | slave (name address masterAddr : Text)
  deriving DecidableEq

namespace NodeInfo

/-- The message for a slave of which a part is missing. -/
def msg : Text := text "A slave node needs a name, its own address, and the master's address."

/-- The part of the constructor for a text with a dash. -/
def ofSlave (config : Text) (dash : ℕ) : Except IllegalArgument NodeInfo :=
  match indexOf AT config with
  | none => .error (some msg)
  | some n =>
    -- no name, or nothing between the two signs
    if n = 0 ∨ dash ≤ n + 1 then .error (some msg)
    else
      let name := trim (config.take n)
      let address := trim ((config.take dash).drop (n + 1))
      let masterAddr := trim (config.drop (dash + 1))
      if name.isEmpty || address.isEmpty || masterAddr.isEmpty then .error none
      else .ok (.slave name address masterAddr)

/-- `new NodeInfo(config)` -/
def new (config : Text) : Except IllegalArgument NodeInfo :=
  let config := trim config
  if config.isEmpty then .error none
  else
    match indexOf DASH config with
    | none => .ok (.master config)
    | some dash => ofSlave config dash

/-- The text of a node. -/
def toString : NodeInfo → Text
  | master address => address
  | slave name address masterAddr => name ++ AT :: address ++ DASH :: masterAddr

end NodeInfo

/-- What the arguments and the configuration file set; the folders come from the environment. -/
@[ext] structure NodeConfig where
  node : NodeInfo
  cassandraHost : Option Text
  logLevel : Text
  deriving DecidableEq

/-- The two methods of strings that depend on the place the program runs at. -/
structure Locale where
  toLowerCase : Text → Text
  toUpperCase : Text → Text

namespace NodeConfig

/-- The fields before anything is read. -/
def initial : NodeConfig := ⟨.master (text "localhost"), none, text "INFO"⟩

/-- The names for the node. -/
def nodeNames : List Text := [text "--node", text "-node", text "node"]

/-- The names for the host of the database. -/
def cassandraNames : List Text :=
  [text "--cassandra.host", text "-cassandra.host", text "cassandra.host"]

/-- The names for the log level. -/
def logLevelNames : List Text := [text "--loglevel", text "-loglevel", text "loglevel"]

/-- The names that ask for help. -/
def helpNames : List Text :=
  [text "--help", text "-help", text "help", text "--h", text "-h", text "h", text "/?"]

/-- The log levels that are accepted. -/
def logLevels : List Text := [text "DEBUG", text "INFO", text "WARN", text "ERROR"]

/-- The `switch` over the name of an argument; a name it does not list is skipped. -/
def set (locale : Locale) (config : NodeConfig) (name value : Text) :
    Except IllegalArgument NodeConfig :=
  if nodeNames.contains name then (NodeInfo.new value).map fun node => { config with node := node }
  else if cassandraNames.contains name then .ok { config with cassandraHost := some value }
  else if logLevelNames.contains name then
    let logLevel := locale.toUpperCase value
    if logLevels.contains logLevel then .ok { config with logLevel := logLevel }
    else .error (some (text "loglevel should be one of the following: debug, info, warn, error"))
  else if helpNames.contains name then .error none
  else .ok config

/-- One round of the loop over the arguments. -/
def parseArg (locale : Locale) (config : NodeConfig) (arg : Text) :
    Except IllegalArgument NodeConfig :=
  match indexOf EQUALS arg with
  | none => .error (some (text "Invalid argument: " ++ arg))
  | some n =>
    if n = 0 ∨ arg.length ≤ n + 1 then .error (some (text "Invalid argument: " ++ arg))
    else set locale config (locale.toLowerCase (arg.take n)) (arg.drop (n + 1))

/-- The loop over the arguments, which ends with the first exception. -/
def parseArgs (locale : Locale) (args : List Text) : Except IllegalArgument NodeConfig :=
  args.foldlM (parseArg locale) initial

/-- The properties of the configuration file, with their names. -/
def parseConfigFile (properties : Text → Option Text) : Except IllegalArgument NodeConfig :=
  match properties (text "node") with
  | none => .error (some (text "Parameter --node is required."))
  | some nodeStr =>
    if nodeStr.isEmpty then .error (some (text "Parameter --node is required."))
    else
      (NodeInfo.new nodeStr).map fun node =>
        { initial with
          node := node
          cassandraHost := some ((properties (text "cassandra.host")).getD (text "localhost")) }

/-- The constructor: the file is only read when there are no arguments. -/
def new (locale : Locale) (args : List Text) (configFile : Option (Text → Option Text)) :
    Except IllegalArgument NodeConfig :=
  if args ≠ [] then parseArgs locale args
  else
    match configFile with
    | none => .error (some (text "No configuration file nor program arguments."))
    | some properties => parseConfigFile properties

end NodeConfig

end Model

namespace NodeInfo

/-- The texts that configure a node: the parts as they stand in the text, before trimming. -/
def Spells (config : Text) : NodeInfo → Prop
  | master address => trim config = address ∧ address ≠ [] ∧ DASH ∉ address
  | slave name address masterAddr =>
    ∃ n a m, trim config = n ++ AT :: a ++ DASH :: m ∧ AT ∉ n ∧ DASH ∉ n ++ AT :: a ∧
      (trim n ≠ [] ∧ trim a ≠ [] ∧ trim m ≠ []) ∧
      name = trim n ∧ address = trim a ∧ masterAddr = trim m

section Constructor

variable {config n a m : Text} {info : NodeInfo}

/-- A slave's text with an `@` before the dash: the checks of the indices refuse nothing that the
checks of the parts accept. -/
theorem ofSlave_eq_ok_iff (hat : AT ∉ n) :
    ofSlave (n ++ AT :: a ++ DASH :: m) (n ++ AT :: a).length = .ok info ↔
      (trim n ≠ [] ∧ trim a ≠ [] ∧ trim m ≠ []) ∧ info = slave (trim n) (trim a) (trim m) := by
  have hindex : indexOf AT (n ++ AT :: a ++ DASH :: m) = some n.length := by
    rw [List.append_assoc, List.cons_append]
    exact indexOf_append_cons hat _
  have hname : (n ++ AT :: a ++ DASH :: m).take n.length = n := by
    rw [List.append_assoc]
    exact List.take_left
  have haddress :
      ((n ++ AT :: a ++ DASH :: m).take (n ++ AT :: a).length).drop (n.length + 1) = a := by
    rw [List.take_left]
    exact (take_drop_split n a AT).2
  have hmaster : (n ++ AT :: a ++ DASH :: m).drop ((n ++ AT :: a).length + 1) = m :=
    (take_drop_split (n ++ AT :: a) m DASH).2
  simp only [ofSlave, hindex, hname, haddress, hmaster]
  split_ifs with hchecks hempty
  · -- a part of no units is empty after trimming as well
    refine iff_of_false (by simp) ?_
    rintro ⟨⟨hn, ha, -⟩, -⟩
    rcases hchecks with h | h
    · exact hn (by rw [List.length_eq_zero_iff.1 h]; rfl)
    · rw [List.length_append, List.length_cons] at h
      have hnil : a = [] := List.length_eq_zero_iff.1 (by omega)
      exact ha (by rw [hnil]; rfl)
  · refine iff_of_false (by simp) ?_
    rintro ⟨⟨hn, ha, hm⟩, -⟩
    simp [hn, ha, hm] at hempty
  · simp only [Bool.or_eq_true, List.isEmpty_iff, not_or] at hempty
    simp [hempty, eq_comm]

/-- Without an `@` before the dash there is no slave. -/
theorem ofSlave_of_notMem {s : Text} (hat : AT ∉ s) :
    ofSlave (s ++ DASH :: m) s.length = .error (some msg) := by
  rw [ofSlave]
  cases hindex : indexOf AT (s ++ DASH :: m) with
  | none => rfl
  | some k =>
      obtain ⟨u, v, heq, -, rfl⟩ := exists_of_indexOf hindex
      -- the first `@` stands behind the dash
      have hlength : s.length ≤ u.length := by
        by_contra hlt
        have hmem : AT ∈ s := by
          have hbefore : u ++ [AT] <+: s ++ DASH :: m := by
            rw [heq]
            exact ⟨v, by simp⟩
          have hshort : (u ++ [AT]).length ≤ s.length := by
            rw [List.length_append, List.length_singleton]
            omega
          have hprefix : u ++ [AT] <+: s :=
            List.prefix_of_prefix_length_le hbefore (List.prefix_append s _) hshort
          exact hprefix.subset (by simp)
        exact hat hmem
      exact if_pos (Or.inr (by omega))

theorem new_eq_ok_iff : new config = .ok info ↔ Spells config info := by
  rw [new]
  by_cases hempty : trim config = []
  · -- nothing is spelled by blanks
    rw [hempty]
    refine iff_of_false (by simp) ?_
    cases info with
    | master address => exact fun h => h.2.1 (h.1.symm.trans hempty)
    | slave name address masterAddr =>
        rintro ⟨n, a, m, heq, -⟩
        rw [hempty] at heq
        exact absurd (congrArg List.length heq) (by simp)
  rw [if_neg (by simpa using hempty)]
  by_cases hdash : DASH ∈ trim config
  · obtain ⟨s, m, heq, hs⟩ := List.eq_append_cons_of_mem hdash
    rw [heq, indexOf_append_cons hs]
    by_cases hat : AT ∈ s
    · obtain ⟨n, a, rfl, hn⟩ := List.eq_append_cons_of_mem hat
      refine (ofSlave_eq_ok_iff hn).trans ?_
      cases info with
      | master address =>
          refine iff_of_false (by simp) ?_
          rintro ⟨rfl, -, hno⟩
          exact hno hdash
      | slave name address masterAddr =>
          rw [slave.injEq]
          constructor
          · rintro ⟨hparts, hfields⟩
            exact ⟨n, a, m, heq, hn, hs, hparts, hfields⟩
          · rintro ⟨n', a', m', heq', hn', hs', hparts, hfields⟩
            -- both dashes and both `@` are the first of their text
            obtain ⟨hfront, rfl⟩ := split_unique hs hs' (heq.symm.trans heq')
            obtain ⟨rfl, rfl⟩ := split_unique hn hn' hfront
            exact ⟨hparts, hfields⟩
    · refine iff_of_false (by simp [ofSlave_of_notMem hat]) ?_
      cases info with
      | master address =>
          rintro ⟨rfl, -, hno⟩
          exact hno hdash
      | slave name address masterAddr =>
          rintro ⟨n, a, m', heq', -, hs', -⟩
          obtain ⟨rfl, rfl⟩ := split_unique hs hs' (heq.symm.trans heq')
          exact hat (by simp)
  · rw [indexOf_of_notMem hdash]
    cases info with
    | master address =>
        simp only [Except.ok.injEq, master.injEq, Spells]
        constructor
        · rintro rfl
          exact ⟨rfl, hempty, hdash⟩
        · exact fun h => h.1
    | slave name address masterAddr =>
        refine iff_of_false (by simp) ?_
        rintro ⟨n, a, m, heq, -⟩
        exact hdash (by rw [heq]; simp)

end Constructor

section Text

variable {config : Text} {info : NodeInfo}

/-- The parts of a node are trimmed, and none of them has a sign that ends it. -/
def WellFormed : NodeInfo → Prop
  | master address => IsTrimmed address ∧ DASH ∉ address
  | slave name address masterAddr =>
    (IsTrimmed name ∧ IsTrimmed address ∧ IsTrimmed masterAddr) ∧
      AT ∉ name ∧ DASH ∉ name ∧ DASH ∉ address

theorem Spells.wellFormed (h : Spells config info) : info.WellFormed := by
  cases info with
  | master address =>
      obtain ⟨rfl, hne, hdash⟩ := h
      exact ⟨isTrimmed_trim hne, hdash⟩
  | slave name address masterAddr =>
      obtain ⟨n, a, m, -, hat, hdash, ⟨hn, ha, hm⟩, rfl, rfl, rfl⟩ := h
      -- trimming brings no new sign in
      refine ⟨⟨isTrimmed_trim hn, isTrimmed_trim ha, isTrimmed_trim hm⟩, ?_, ?_, ?_⟩
      · exact fun hmem => hat (mem_of_mem_trim hmem)
      · exact fun hmem => hdash (List.mem_append_left _ (mem_of_mem_trim hmem))
      · intro hmem
        exact hdash (List.mem_append_right n (List.mem_cons_of_mem AT (mem_of_mem_trim hmem)))

/-- The text of a well-formed node is cut into its parts again. -/
theorem WellFormed.spells_toString (h : info.WellFormed) : Spells info.toString info := by
  cases info with
  | master address =>
      obtain ⟨haddress, hdash⟩ := h
      exact ⟨haddress.trim_eq, haddress.ne_nil, hdash⟩
  | slave name address masterAddr =>
      obtain ⟨⟨hname, haddress, hmaster⟩, hat, hdashName, hdashAddress⟩ := h
      refine ⟨name, address, masterAddr, ?_, hat, ?_, ?_, ?_⟩
      · have htext : (slave name address masterAddr).toString =
            name ++ ((AT :: address ++ [DASH]) ++ masterAddr) := by
          simp [NodeInfo.toString]
        rw [htext, (hname.append_append _ hmaster).trim_eq]
        simp
      · have hdiffer : DASH ≠ AT := by decide
        simp [hdashName, hdashAddress, hdiffer]
      · rw [hname.trim_eq, haddress.trim_eq, hmaster.trim_eq]
        exact ⟨hname.ne_nil, haddress.ne_nil, hmaster.ne_nil⟩
      · rw [hname.trim_eq, haddress.trim_eq, hmaster.trim_eq]
        exact ⟨rfl, rfl, rfl⟩

/-- The nodes that a text configures are those that their own text configures, and these are the
well-formed ones. -/
theorem accepted_iff_reads_back (info : NodeInfo) :
    ((∃ config, new config = .ok info) ↔ new info.toString = .ok info) ∧
      (new info.toString = .ok info ↔ info.WellFormed) := by
  have hreads : new info.toString = .ok info ↔ info.WellFormed := by
    rw [new_eq_ok_iff]
    exact ⟨Spells.wellFormed, WellFormed.spells_toString⟩
  refine ⟨⟨?_, fun h => ⟨info.toString, h⟩⟩, hreads⟩
  rintro ⟨config, h⟩
  exact hreads.2 (new_eq_ok_iff.1 h).wellFormed

end Text

end NodeInfo

/-! ## Arguments -/

/-- What an argument asks for. -/
inductive Setting where
  | node (info : NodeInfo)
  | cassandraHost (host : Text)
  | logLevel (level : Text)
  | unknown
  deriving DecidableEq

namespace Setting

/-- The node that a setting asks for. -/
def node? : Setting → Option NodeInfo
  | node info => some info
  | _ => none

/-- The host that a setting asks for. -/
def cassandraHost? : Setting → Option Text
  | cassandraHost host => some host
  | _ => none

/-- The log level that a setting asks for. -/
def logLevel? : Setting → Option Text
  | logLevel level => some level
  | _ => none

end Setting

namespace NodeConfig

variable {locale : Locale}

/-- What a value says under a name. -/
def Means (locale : Locale) (name value : Text) : Setting → Prop
  | .node info => name ∈ nodeNames ∧ info.Spells value
  | .cassandraHost host => name ∈ cassandraNames ∧ host = value
  | .logLevel level =>
    name ∈ logLevelNames ∧ level = locale.toUpperCase value ∧ level ∈ logLevels
  | .unknown => name ∉ nodeNames ++ cassandraNames ++ logLevelNames ++ helpNames

/-- An argument is a name and a value, and the name is read in small letters. -/
def Says (locale : Locale) (arg : Text) (setting : Setting) : Prop :=
  ∃ name value, arg = name ++ EQUALS :: value ∧ EQUALS ∉ name ∧ name ≠ [] ∧ value ≠ [] ∧
    Means locale (locale.toLowerCase name) value setting

/-- The configuration after a setting. -/
def apply (config : NodeConfig) (setting : Setting) : NodeConfig where
  node := setting.node?.getD config.node
  cassandraHost := (setting.cassandraHost?.map some).getD config.cassandraHost
  logLevel := setting.logLevel?.getD config.logLevel

/-- A name means one thing. -/
theorem names_differ :
    (∀ name ∈ nodeNames, name ∉ cassandraNames ++ logLevelNames ++ helpNames) ∧
      (∀ name ∈ cassandraNames, name ∉ logLevelNames ++ helpNames) ∧
      ∀ name ∈ logLevelNames, name ∉ helpNames := by
  decide +kernel

section Names

variable {name value : Text} {setting : Setting}

theorem means_of_node (h : name ∈ nodeNames) :
    Means locale name value setting ↔ ∃ info, setting = .node info ∧ info.Spells value := by
  have hother := names_differ.1 name h
  simp only [List.mem_append, not_or] at hother
  cases setting <;> simp [Means, h, hother]

theorem means_of_cassandra (h : name ∈ cassandraNames) :
    Means locale name value setting ↔ setting = .cassandraHost value := by
  have hnode : name ∉ nodeNames := fun hmem =>
    names_differ.1 name hmem (List.mem_append_left _ (List.mem_append_left _ h))
  have hother := names_differ.2.1 name h
  simp only [List.mem_append, not_or] at hother
  cases setting <;> simp [Means, h, hnode, hother]

theorem means_of_logLevel (h : name ∈ logLevelNames) :
    Means locale name value setting ↔
      setting = .logLevel (locale.toUpperCase value) ∧ locale.toUpperCase value ∈ logLevels := by
  have hnode : name ∉ nodeNames := fun hmem =>
    names_differ.1 name hmem (List.mem_append_left _ (List.mem_append_right _ h))
  have hcassandra : name ∉ cassandraNames := fun hmem =>
    names_differ.2.1 name hmem (List.mem_append_left _ h)
  cases setting with
  | node info => simp [Means, hnode]
  | cassandraHost host => simp [Means, hcassandra]
  | logLevel level =>
      simp only [Means, h, true_and, Setting.logLevel.injEq]
      constructor
      · rintro ⟨rfl, hlevel⟩
        exact ⟨rfl, hlevel⟩
      · rintro ⟨rfl, hlevel⟩
        exact ⟨rfl, hlevel⟩
  | unknown => simp [Means, h]

/-- The names that ask for help mean no setting, and a name of no list means that nothing is set. -/
theorem means_of_rest (hnode : name ∉ nodeNames) (hcassandra : name ∉ cassandraNames)
    (hlogLevel : name ∉ logLevelNames) :
    Means locale name value setting ↔ setting = .unknown ∧ name ∉ helpNames := by
  cases setting <;> simp [Means, hnode, hcassandra, hlogLevel]

end Names

theorem set_eq_ok_iff (config config' : NodeConfig) (name value : Text) :
    set locale config name value = .ok config' ↔
      ∃ setting, Means locale name value setting ∧ config' = config.apply setting := by
  rw [set]
  simp only [List.contains_iff_mem]
  -- each name means one setting, so the switch reads off which
  split_ifs with hnode hcassandra hlogLevel hlevel hhelp
  · simp only [means_of_node hnode, ← NodeInfo.new_eq_ok_iff]
    cases hnew : NodeInfo.new value with
    | error e => simp [Except.map]
    | ok info =>
        rw [Except.map, Except.ok.injEq]
        constructor
        · rintro rfl
          exact ⟨.node info, ⟨info, rfl, rfl⟩, rfl⟩
        · rintro ⟨setting, ⟨info', rfl, hinfo⟩, rfl⟩
          cases hinfo
          rfl
  · simp only [means_of_cassandra hcassandra, exists_eq_left, Except.ok.injEq]
    exact eq_comm
  · simp only [means_of_logLevel hlogLevel, hlevel, and_true, exists_eq_left, Except.ok.injEq]
    exact eq_comm
  · simp [means_of_logLevel hlogLevel, hlevel]
  · simp [means_of_rest hnode hcassandra hlogLevel, hhelp]
  · simp only [means_of_rest hnode hcassandra hlogLevel, hhelp, not_false_eq_true, and_true,
      exists_eq_left, Except.ok.injEq]
    exact eq_comm

theorem parseArg_eq_ok_iff (locale : Locale) (config : NodeConfig) (arg : Text) (config' : NodeConfig) :
    parseArg locale config arg = .ok config' ↔
      ∃ setting, Says locale arg setting ∧ config' = config.apply setting := by
  rw [parseArg]
  cases hindex : indexOf EQUALS arg with
  | none =>
      refine iff_of_false (by simp) ?_
      rintro ⟨setting, ⟨name, value, rfl, -⟩, -⟩
      exact notMem_of_indexOf hindex (by simp)
  | some n =>
      -- the name ends at the first sign, wherever the value has others
      obtain ⟨name, value, rfl, hname, rfl⟩ := exists_of_indexOf hindex
      obtain ⟨htake, hdrop⟩ := take_drop_split name value EQUALS
      simp only [htake, hdrop]
      split_ifs with hends
      · refine iff_of_false (by simp) ?_
        rintro ⟨setting, ⟨name', value', heq, hname', hne, hvalue, -⟩, -⟩
        obtain ⟨rfl, rfl⟩ := split_unique hname hname' heq
        rcases hends with h | h
        · exact hne (List.length_eq_zero_iff.1 h)
        · rw [List.length_append, List.length_cons] at h
          exact hvalue (List.length_eq_zero_iff.1 (by omega))
      · rw [not_or, List.length_append, List.length_cons] at hends
        have hne : name ≠ [] := fun h => hends.1 (by rw [h]; rfl)
        have hvalue : value ≠ [] := fun h => hends.2 (by rw [h, List.length_nil])
        refine (set_eq_ok_iff config config' _ _).trans ?_
        constructor
        · rintro ⟨setting, hmeans, rfl⟩
          exact ⟨setting, ⟨name, value, rfl, hname, hne, hvalue, hmeans⟩, rfl⟩
        · rintro ⟨setting, ⟨name', value', heq, hname', -, -, hmeans⟩, rfl⟩
          obtain ⟨rfl, rfl⟩ := split_unique hname hname' heq
          exact ⟨setting, hmeans, rfl⟩

/-- The fields after a list of settings. -/
theorem foldl_apply_iff (settings : List Setting) (config : NodeConfig) :
    config = settings.foldl apply initial ↔
      config.node = (settings.filterMap Setting.node?).getLast?.getD (.master (text "localhost")) ∧
        config.cassandraHost = (settings.filterMap Setting.cassandraHost?).getLast? ∧
        config.logLevel = (settings.filterMap Setting.logLevel?).getLast?.getD (text "INFO") := by
  have hnode := foldl_eq_getLast? (fun c s => rfl : ∀ (c : NodeConfig) s,
    (apply c s).node = (Setting.node? s).getD c.node) settings initial
  have hhost := foldl_eq_getLast? (fun c s => rfl : ∀ (c : NodeConfig) s,
    (apply c s).cassandraHost = ((Setting.cassandraHost? s).map some).getD c.cassandraHost)
    settings initial
  have hlevel := foldl_eq_getLast? (fun c s => rfl : ∀ (c : NodeConfig) s,
    (apply c s).logLevel = (Setting.logLevel? s).getD c.logLevel) settings initial
  have hsome : (settings.filterMap fun s => s.cassandraHost?.map some).getLast?.getD none =
      (settings.filterMap Setting.cassandraHost?).getLast? := by
    rw [← List.map_filterMap, List.getLast?_map]
    cases (settings.filterMap Setting.cassandraHost?).getLast? <;> rfl
  rw [← hsome]
  constructor
  · rintro rfl
    exact ⟨hnode, hhost, hlevel⟩
  · rintro ⟨h₁, h₂, h₃⟩
    rw [NodeConfig.ext_iff]
    exact ⟨h₁.trans hnode.symm, h₂.trans hhost.symm, h₃.trans hlevel.symm⟩

/-- A configuration that the program can start from: its node is well formed, and its log level is in
the list. -/
structure IsUsable (config : NodeConfig) : Prop where
  node : config.node.WellFormed
  logLevel : config.logLevel ∈ logLevels

theorem isUsable_initial : IsUsable initial := by
  have hlocalhost : NodeInfo.Spells (text "localhost") initial.node :=
    ⟨by decide, by decide, by decide⟩
  exact ⟨hlocalhost.wellFormed, by decide⟩

theorem IsUsable.apply {config : NodeConfig} (h : config.IsUsable) {arg : Text} {setting : Setting}
    (hsaid : Says locale arg setting) : (config.apply setting).IsUsable := by
  obtain ⟨name, value, -, -, -, -, hmeans⟩ := hsaid
  cases setting with
  | node info => exact ⟨hmeans.2.wellFormed, h.logLevel⟩
  | cassandraHost host => exact ⟨h.node, h.logLevel⟩
  | logLevel level => exact ⟨h.node, hmeans.2.2⟩
  | unknown => exact ⟨h.node, h.logLevel⟩

theorem isUsable_foldl {args : List Text} {settings : List Setting}
    (hsaid : List.Forall₂ (Says locale) args settings) {config : NodeConfig}
    (h : config.IsUsable) : (settings.foldl NodeConfig.apply config).IsUsable := by
  induction hsaid generalizing config with
  | nil => exact h
  | cons harg _ ih => exact ih (h.apply harg)

theorem isUsable_of_parseArgs {args : List Text} {config : NodeConfig}
    (h : parseArgs locale args = .ok config) : config.IsUsable := by
  rw [parseArgs, foldlM_ok_iff (parseArg_eq_ok_iff locale)] at h
  obtain ⟨settings, hsaid, rfl⟩ := h
  exact isUsable_foldl hsaid isUsable_initial

theorem isUsable_of_parseConfigFile {properties : Text → Option Text} {config : NodeConfig}
    (h : parseConfigFile properties = .ok config) : config.IsUsable := by
  rw [parseConfigFile] at h
  cases hnode : properties (text "node") with
  | none =>
      rw [hnode] at h
      cases h
  | some nodeStr =>
      simp only [hnode] at h
      split_ifs at h
      cases hnew : NodeInfo.new nodeStr with
      | error e =>
          rw [hnew] at h
          cases h
      | ok info =>
          rw [hnew] at h
          cases h
          exact ⟨(NodeInfo.new_eq_ok_iff.1 hnew).wellFormed, isUsable_initial.logLevel⟩

theorem isUsable_of_new {args : List Text} {configFile : Option (Text → Option Text)}
    {config : NodeConfig} (h : new locale args configFile = .ok config) : config.IsUsable := by
  rw [NodeConfig.new.eq_def] at h
  split_ifs at h with hargs
  · exact isUsable_of_parseArgs h
  · cases configFile with
    | none => cases h
    | some properties => exact isUsable_of_parseConfigFile h

/-- Arguments configure a node when each of them says something, and the last one to set a field
has it. Whether it starts with arguments or with a file, the program only accepts a usable
configuration. -/
theorem parseArgs_ok_iff (locale : Locale) (args : List Text) (config : NodeConfig) :
    (parseArgs locale args = .ok config ↔
      ∃ settings, List.Forall₂ (Says locale) args settings ∧
        config.node = (settings.filterMap Setting.node?).getLast?.getD (.master (text "localhost")) ∧
        config.cassandraHost = (settings.filterMap Setting.cassandraHost?).getLast? ∧
        config.logLevel = (settings.filterMap Setting.logLevel?).getLast?.getD (text "INFO")) ∧
      ∀ configFile, new locale args configFile = .ok config → config.IsUsable := by
  constructor
  · rw [parseArgs, foldlM_ok_iff (parseArg_eq_ok_iff locale)]
    exact exists_congr fun settings => and_congr_right fun _ => foldl_apply_iff settings config
  · exact fun _ => isUsable_of_new

/-- An accepted command line: the second node counts, and an unknown name is skipped. -/
example : parseArgs ⟨id, id⟩ (["node=a", "x=1", "-node= n@b- c "].map text) =
    .ok ⟨.slave (text "n") (text "b") (text "c"), none, text "INFO"⟩ := by
  decide +kernel

end NodeConfig

end Siebog.Starter
