import Line64.BenchmarkOptions
import Line64.BenchmarkPayload
import Line64.MpmcModel

/-!
# The command line of the stress program

`parse_config` reads options one after another, later ones over earlier ones,
and then checks the configuration as a whole. Texts of the command line are
strings, and numbers are read by `parse_unsigned`, which is the function of
the benchmark.
-/

namespace Line64.StressConfig

open BenchmarkOptions BenchmarkPayload

/-- Options of a stress run. The counts fit 32 bits, the other numbers 64. -/
structure Config where
  /-- Seed of payloads and schedules. -/
  seed : ℕ
  /-- Milliseconds until the deadline. -/
  durationMs : ℕ
  /-- Messages of each producer. -/
  iterations : ℕ
  /-- Name of the queue, or `all`. -/
  queue : String
  /-- Number of producers. -/
  producers : ℕ
  /-- Number of consumers. -/
  consumers : ℕ
  /-- Bytes of a message. -/
  payloadSize : ℕ
  /-- Capacity of the queue. -/
  capacity : ℕ
  /-- The option `--verbose`. -/
  verbose : Bool
  deriving DecidableEq, Repr

/-- Values of options that are not given. -/
def Config.initial : Config := ⟨0x4f52424954515545,250,10000,"all",3,3,64,64,false⟩

/-- How parsing ends without a configuration. -/
inductive Stop
  /-- The usage was asked for. -/
  | exitSuccess
  /-- An exception with its message. -/
  | invalidArgument (message : String)
  deriving DecidableEq, Repr

/-- The function `parse_unsigned`. -/
def parseUnsigned (option value : String) : Except Stop ℕ :=
  (BenchmarkOptions.parseUnsigned option value.toList).mapError .invalidArgument

/-- An option whose number has to fit 32 bits. -/
def parseCount (option value : String) : Except Stop ℕ := do
  let parsed ← parseUnsigned option value
  if 2^32-1<parsed then throw (.invalidArgument (option++" exceeds uint32 range"))
  else return parsed

/-- One option with its value. -/
def applyOption (config : Config) (option value : String) : Except Stop Config :=
  if option="--seed" then
    (parseUnsigned option value).map fun parsed => {config with seed := parsed}
  else if option="--duration-ms" then
    (parseUnsigned option value).map fun parsed => {config with durationMs := parsed}
  else if option="--iterations" then
    (parseUnsigned option value).map fun parsed => {config with iterations := parsed}
  else if option="--queue" then .ok {config with queue := value}
  else if option="--producers" then
    (parseCount option value).map fun parsed => {config with producers := parsed}
  else if option="--consumers" then
    (parseCount option value).map fun parsed => {config with consumers := parsed}
  else if option="--payload-size" then
    (parseCount option value).map fun parsed => {config with payloadSize := parsed}
  else if option="--capacity" then
    (parseCount option value).map fun parsed => {config with capacity := parsed}
  else .error (.invalidArgument ("unknown option: "++option))

/-- Loop of `parse_config` over the arguments that are left. -/
def parseOptions (config : Config) : List String → Except Stop Config
  | [] => .ok config
  | option::rest =>
    if option="--verbose" then parseOptions {config with verbose := true} rest
    else if option="--help" then .error .exitSuccess
    else
      match rest with
      | [] => .error (.invalidArgument (option++" requires a value"))
      | value::rest =>
        match applyOption config option value with
        | .error stop => .error stop
        | .ok config => parseOptions config rest

/-- Names accepted by `--queue`. -/
def queues : List String := ["all","spsc","blocking","spmc","versioned_spmc","mpmc"]

/-- The function `should_run`. -/
def Config.shouldRun (config : Config) (queue : String) : Prop :=
  config.queue="all" ∨ config.queue=queue

instance (config : Config) (queue : String) : Decidable (config.shouldRun queue) :=
  inferInstanceAs (Decidable (_ ∨ _))

/-- Reasons to reject a configuration, in the order in which they are looked
at, with their messages. -/
def objections (config : Config) : List (Bool × String) :=
  [(decide (config.queue ∉ queues),
      "--queue must be all, spsc, blocking, spmc, versioned_spmc, or mpmc"),
    (decide (config.durationMs=0 ∨ 2^63-1 < config.durationMs),
      "--duration-ms must fit a positive int64"),
    (decide (config.iterations=0 ∨ 10000000 < config.iterations),
      "--iterations must be between 1 and 10000000"),
    (decide (config.producers=0 ∨ 64 < config.producers ∨ config.consumers=0 ∨
        64 < config.consumers),
      "producer and consumer counts must be between 1 and 64"),
    (decide (config.payloadSize<payloadHeaderSize ∨ maxPayloadSize < config.payloadSize),
      "payload size must be between 32 and 256 bytes"),
    (decide (config.capacity=0),"capacity must be greater than zero"),
    (decide (config.shouldRun "mpmc" ∧
        (config.capacity<2 ∨ config.capacity&&&(config.capacity-1)≠0)),
      "MPMC stress capacity must be a power of two greater than one"),
    (decide (config.queue="spsc" ∧ (config.producers≠1 ∨ config.consumers≠1)),
      "SPSC stress requires one producer and one consumer"),
    (decide ((config.queue="spmc" ∨ config.queue="versioned_spmc") ∧ config.producers≠1),
      "SPMC stress requires one producer"),
    (decide ((2^64-1)/config.producers < config.iterations),
      "producer count times iterations overflows uint64")]

/-- The checks behind the loop. -/
def checkConfig (config : Config) : Except Stop Config :=
  match (objections config).find? Prod.fst with
  | some (_,message) => .error (.invalidArgument message)
  | none => .ok config

/-- The function `parse_config`. -/
def parseConfig (arguments : List String) : Except Stop Config :=
  match parseOptions .initial arguments with
  | .error stop => .error stop
  | .ok config => checkConfig config

/-- Configurations on which the runs can rely. -/
structure Valid (config : Config) : Prop where
  /-- The seed is a word. -/
  seed : config.seed<2^64
  /-- The deadline is a positive number of milliseconds. -/
  duration : 1 ≤ config.durationMs ∧ config.durationMs<2^63
  /-- There are messages to send. -/
  iterations : 1 ≤ config.iterations ∧ config.iterations≤10000000
  /-- The queue is known. -/
  queue : config.queue ∈ queues
  /-- There are producers. -/
  producers : 1 ≤ config.producers ∧ config.producers≤64
  /-- There are consumers. -/
  consumers : 1 ≤ config.consumers ∧ config.consumers≤64
  /-- A message holds a header and fits a slot. -/
  payload : payloadHeaderSize ≤ config.payloadSize ∧ config.payloadSize ≤ maxPayloadSize
  /-- The capacity is a positive count. -/
  capacity : 1 ≤ config.capacity ∧ config.capacity<2^32
  /-- The constructor of the MPMC queue accepts the capacity. -/
  mpmc : config.shouldRun "mpmc" → MpmcModel.validateCapacity config.capacity=.ok config.capacity
  /-- The SPSC queue alone has one thread on either side. -/
  spsc : config.queue="spsc" → config.producers=1 ∧ config.consumers=1
  /-- A multicast queue alone has one producer. -/
  multicast : config.queue="spmc" ∨ config.queue="versioned_spmc" → config.producers=1

/-- Numbers without a check of their own fit their types. -/
structure Words (config : Config) : Prop where
  /-- The seed. -/
  seed : config.seed<2^64
  /-- The capacity. -/
  capacity : config.capacity<2^32

/-- Numbers read from the command line are words. -/
theorem parseUnsigned_lt {option value : String} {parsed : ℕ}
    (h : parseUnsigned option value=.ok parsed) : parsed<2^64 := by
  unfold parseUnsigned Except.mapError at h
  split at h
  · cases h
  · rename_i hparsed
    cases h
    obtain ⟨-,-,hlt,rfl⟩ := parseUnsigned_ok_iff.mp hparsed
    exact hlt

/-- Counts read from the command line are short words. -/
theorem parseCount_lt {option value : String} {parsed : ℕ}
    (h : parseCount option value=.ok parsed) : parsed<2^32 := by
  unfold parseCount at h
  cases hparsed : parseUnsigned option value with
  | error stop =>
    rw [hparsed] at h
    cases h
  | ok number =>
    rw [hparsed] at h
    simp only [bind,Except.bind] at h
    split at h
    · cases h
    · cases h
      omega

/-- A number is stored. -/
theorem ok_of_map_ok {parsed : Except Stop ℕ} {f : ℕ → Config} {config : Config}
    (h : parsed.map f=.ok config) : ∃ number,parsed=.ok number ∧ f number=config := by
  cases parsed with
  | error stop => cases h
  | ok number => exact ⟨number,rfl,Except.ok.inj h⟩

/-- An option keeps the numbers within their types. -/
theorem Words.applyOption {config config' : Config} (h : Words config) {option value : String}
    (hs : StressConfig.applyOption config option value=.ok config') : Words config' := by
  unfold StressConfig.applyOption at hs
  split_ifs at hs
  · obtain ⟨number,hnumber,rfl⟩ := ok_of_map_ok hs
    exact ⟨parseUnsigned_lt hnumber,h.capacity⟩
  · obtain ⟨number,-,rfl⟩ := ok_of_map_ok hs
    exact ⟨h.seed,h.capacity⟩
  · obtain ⟨number,-,rfl⟩ := ok_of_map_ok hs
    exact ⟨h.seed,h.capacity⟩
  · cases hs
    exact ⟨h.seed,h.capacity⟩
  · obtain ⟨number,-,rfl⟩ := ok_of_map_ok hs
    exact ⟨h.seed,h.capacity⟩
  · obtain ⟨number,-,rfl⟩ := ok_of_map_ok hs
    exact ⟨h.seed,h.capacity⟩
  · obtain ⟨number,-,rfl⟩ := ok_of_map_ok hs
    exact ⟨h.seed,h.capacity⟩
  · obtain ⟨number,hnumber,rfl⟩ := ok_of_map_ok hs
    exact ⟨h.seed,parseCount_lt hnumber⟩

/-- All options keep the numbers within their types. -/
theorem Words.parseOptions {config config' : Config} (h : Words config) {arguments : List String}
    (hs : StressConfig.parseOptions config arguments=.ok config') : Words config' := by
  fun_induction StressConfig.parseOptions config arguments with
  | case1 config =>
    cases hs
    exact h
  | case2 config rest ih => exact ih ⟨h.seed,h.capacity⟩ hs
  | case3 => cases hs
  | case4 => cases hs
  | case5 => cases hs
  | case6 config option _ _ value rest next happly ih => exact ih (h.applyOption happly) hs

/-- The checks pass exactly where no objection holds. -/
theorem checkConfig_ok_iff {config config' : Config} :
    checkConfig config=.ok config' ↔
      (∀ objection ∈ objections config,objection.1=false) ∧ config=config' := by
  unfold checkConfig
  split
  · rename_i holds message hfind
    have hmem := List.mem_of_find?_eq_some hfind
    have htrue := List.find?_some hfind
    constructor
    · intro h
      cases h
    · rintro ⟨hnone,-⟩
      rw [hnone _ hmem] at htrue
      cases htrue
  · rename_i hfind
    rw [List.find?_eq_none] at hfind
    constructor
    · intro h
      cases h
      exact ⟨fun objection hmem => Bool.eq_false_iff.mpr (hfind objection hmem),rfl⟩
    · rintro ⟨-,rfl⟩
      rfl

/-- Within the accepted counts no number of messages overflows. -/
theorem iterations_le_div {producers iterations : ℕ} (hpos : 1≤producers) (hp : producers≤64)
    (hi : iterations≤10000000) : ¬(2^64-1)/producers < iterations := by
  have hdiv : (2^64-1)/64≤(2^64-1)/producers := Nat.div_le_div_left hp hpos
  omega

/-- No objection holds exactly against a valid configuration. -/
theorem objections_iff_valid {config : Config} (hwords : Words config) :
    (∀ objection ∈ objections config,objection.1=false) ↔ Valid config := by
  simp only [objections,List.forall_mem_cons,decide_eq_false_iff_not,not_or,not_and,not_not,
    Nat.not_lt]
  constructor
  · rintro ⟨hqueue,hduration,hiterations,hcounts,hpayload,hcapacity,hmpmc,hspsc,hmulticast,-,-⟩
    refine ⟨hwords.seed,by omega,by omega,hqueue,by omega,by omega,hpayload,
      ⟨by omega,hwords.capacity⟩,?_,hspsc,hmulticast⟩
    intro hruns
    obtain ⟨htwo,hmask⟩ := hmpmc hruns
    rw [MpmcModel.validateCapacity,if_neg]
    rintro (hsmall | hbits)
    · omega
    · exact hbits hmask
  · intro h
    refine ⟨h.queue,?_,?_,?_,h.payload,?_,?_,h.spsc,h.multicast,?_,List.forall_mem_nil _⟩
    · have := h.duration
      omega
    · have := h.iterations
      omega
    · have := h.producers
      have := h.consumers
      omega
    · have := h.capacity
      omega
    · intro hruns
      have haccepted := h.mpmc hruns
      unfold MpmcModel.validateCapacity at haccepted
      split at haccepted
      · cases haccepted
      · rename_i hnot
        rw [not_or,not_not,Nat.not_lt] at hnot
        exact hnot
    · exact Nat.not_lt.mp (iterations_le_div h.producers.1 h.producers.2 h.iterations.2)

/-- The check for overflow stands behind checks that make it vain. -/
theorem checkConfig_ne_overflow (config : Config) :
    checkConfig config≠
      .error (.invalidArgument "producer count times iterations overflows uint64") := by
  have hsplit : objections config=(objections config).dropLast++
      [(decide ((2^64-1)/config.producers < config.iterations),
        "producer count times iterations overflows uint64")] := rfl
  unfold checkConfig
  rw [hsplit,List.find?_append]
  cases hfront : (objections config).dropLast.find? Prod.fst with
  | some objection =>
    have hmem : objection.2 ∈ (objections config).dropLast.map Prod.snd :=
      List.mem_map_of_mem (List.mem_of_find?_eq_some hfront)
    simp only [Option.some_or,ne_eq,Except.error.injEq,Stop.invalidArgument.injEq]
    intro hmessage
    rw [hmessage] at hmem
    revert hmem
    simp only [objections,List.dropLast,List.map]
    decide
  | none =>
    rw [List.find?_eq_none] at hfront
    simp only [objections,List.dropLast,List.forall_mem_cons,decide_eq_true_eq,not_or] at hfront
    obtain ⟨-,-,hiterations,hcounts,-⟩ := hfront
    have hfits : ¬(2^64-1)/config.producers < config.iterations :=
      iterations_le_div (by omega) (by omega) (by omega)
    rw [decide_eq_false hfits]
    nofun

/-- A number as it is typed. -/
def number (value : ℕ) : String := .ofList (Nat.toDigits 10 value)

/-- An option with a value of its kind. -/
inductive Setting
  | seed (value : ℕ)
  | durationMs (value : ℕ)
  | iterations (value : ℕ)
  | queue (name : String)
  | producers (value : ℕ)
  | consumers (value : ℕ)
  | payloadSize (value : ℕ)
  | capacity (value : ℕ)
  | verbose

/-- An option as it is typed. -/
def Setting.typed : Setting → List String
  | .seed value => ["--seed",number value]
  | .durationMs value => ["--duration-ms",number value]
  | .iterations value => ["--iterations",number value]
  | .queue name => ["--queue",name]
  | .producers value => ["--producers",number value]
  | .consumers value => ["--consumers",number value]
  | .payloadSize value => ["--payload-size",number value]
  | .capacity value => ["--capacity",number value]
  | .verbose => ["--verbose"]

/-- The member an option sets. -/
def Setting.set (config : Config) : Setting → Config
  | .seed value => {config with seed := value}
  | .durationMs value => {config with durationMs := value}
  | .iterations value => {config with iterations := value}
  | .queue name => {config with queue := name}
  | .producers value => {config with producers := value}
  | .consumers value => {config with consumers := value}
  | .payloadSize value => {config with payloadSize := value}
  | .capacity value => {config with capacity := value}
  | .verbose => {config with verbose := true}

/-- The number of an option fits the type of its member. -/
def Setting.Fits : Setting → Prop
  | .seed value | .durationMs value | .iterations value => value<2^64
  | .producers value | .consumers value | .payloadSize value | .capacity value => value<2^32
  | .queue _ | .verbose => True

/-- All options of a configuration. -/
def Config.settings (config : Config) : List Setting :=
  [.seed config.seed,.durationMs config.durationMs,.iterations config.iterations,
    .queue config.queue,.producers config.producers,.consumers config.consumers,
    .payloadSize config.payloadSize,.capacity config.capacity]++
    if config.verbose then [.verbose] else []

/-- All options of a configuration as they are typed. -/
def commandLine (config : Config) : List String := config.settings.flatMap Setting.typed

/-- A typed number is read back. -/
theorem parseUnsigned_number (option : String) {value : ℕ} (h : value<2^64) :
    parseUnsigned option (number value)=.ok value := by
  have hvalue : decimal (Nat.toDigits 10 value)=value :=
    Nat.ofDigitChars_toDigits (by decide) (by decide)
  have hread : BenchmarkOptions.parseUnsigned option (number value).toList=.ok value := by
    rw [parseUnsigned_ok_iff,number,String.toList_ofList,hvalue]
    exact ⟨Nat.toDigits_ne_nil,
      fun digit hmem => Nat.isDigit_of_mem_toDigits (by decide) (by decide) hmem,h,rfl⟩
  rw [parseUnsigned,hread]
  rfl

/-- A typed count is read back. -/
theorem parseCount_number (option : String) {value : ℕ} (h : value<2^32) :
    parseCount option (number value)=.ok value := by
  rw [parseCount,parseUnsigned_number option (h.trans (by decide))]
  simp only [bind,Except.bind]
  rw [if_neg (by omega)]
  rfl

/-- One typed option sets its member. -/
theorem parseOptions_typed {setting : Setting} (h : setting.Fits) (config : Config)
    (rest : List String) :
    parseOptions config (setting.typed++rest)=parseOptions (setting.set config) rest := by
  cases setting with
  | queue name => simp [Setting.typed,Setting.set,parseOptions,applyOption]
  | verbose => cases rest <;> simp [Setting.typed,Setting.set,parseOptions]
  | seed value | durationMs value | iterations value =>
    simp [Setting.typed,Setting.set,parseOptions,applyOption,parseUnsigned_number _ h,Except.map]
  | producers value | consumers value | payloadSize value | capacity value =>
    simp [Setting.typed,Setting.set,parseOptions,applyOption,parseCount_number _ h,Except.map]

/-- Typed options set their members one after another. -/
theorem parseOptions_settings {settings : List Setting} (h : ∀ setting ∈ settings,setting.Fits)
    (config : Config) :
    parseOptions config (settings.flatMap Setting.typed)=.ok (settings.foldl Setting.set config) := by
  induction settings generalizing config with
  | nil => simp [parseOptions]
  | cons setting rest ih =>
    rw [List.flatMap_cons,parseOptions_typed (h setting List.mem_cons_self)]
    exact ih (fun other hmem => h other (List.mem_cons_of_mem setting hmem)) (setting.set config)

/-- Options of a valid configuration fit. -/
theorem Valid.fits {config : Config} (h : Valid config) :
    ∀ setting ∈ config.settings,setting.Fits := by
  have hverbose : ∀ setting ∈ (if config.verbose then [Setting.verbose] else []),
      setting.Fits := by
    intro setting hmem
    split at hmem
    · cases List.mem_singleton.mp hmem
      trivial
    · exact absurd hmem List.not_mem_nil
  unfold Config.settings
  simp only [List.forall_mem_append,List.forall_mem_cons]
  refine ⟨⟨h.seed,h.duration.2.trans (by decide),?_,trivial,?_,?_,?_,h.capacity.2,
    fun _ hmem => absurd hmem List.not_mem_nil⟩,hverbose⟩
  · exact Nat.lt_of_le_of_lt h.iterations.2 (by decide)
  · exact Nat.lt_of_le_of_lt h.producers.2 (by decide)
  · exact Nat.lt_of_le_of_lt h.consumers.2 (by decide)
  · exact Nat.lt_of_le_of_lt h.payload.2 (by decide)

/-- All members are set by the options of a configuration. -/
theorem foldl_settings (config : Config) :
    config.settings.foldl Setting.set .initial=config := by
  obtain ⟨seed,duration,iterations,queue,producers,consumers,payloadSize,capacity,verbose⟩ := config
  cases verbose <;> rfl

/-- The typed options of a valid configuration yield it. -/
theorem parseConfig_commandLine {config : Config} (h : Valid config) :
    parseConfig (commandLine config)=.ok config := by
  rw [parseConfig,commandLine,parseOptions_settings h.fits,foldl_settings]
  exact checkConfig_ok_iff.mpr ⟨(objections_iff_valid ⟨h.seed,h.capacity.2⟩).mpr h,rfl⟩

/-- Some command line yields a configuration exactly if it is valid, and the
check for overflow never rejects one. Typed options set their members one
after another before the checks, and those of a valid configuration yield
it. -/
theorem parse_config_exact :
    (∀ config,(∃ arguments,parseConfig arguments=.ok config) ↔ Valid config) ∧
    (∀ config,checkConfig config≠
      .error (.invalidArgument "producer count times iterations overflows uint64")) ∧
    (∀ settings : List Setting,(∀ setting ∈ settings,setting.Fits) →
      parseConfig (settings.flatMap Setting.typed)=
        checkConfig (settings.foldl Setting.set .initial)) ∧
    ∀ config,Valid config → parseConfig (commandLine config)=.ok config := by
  have hinitial : Words .initial := ⟨by decide,by decide⟩
  refine ⟨fun config => ⟨?_,fun h => ⟨commandLine config,parseConfig_commandLine h⟩⟩,
    checkConfig_ne_overflow,?_,fun _ => parseConfig_commandLine⟩
  · rintro ⟨arguments,h⟩
    unfold parseConfig at h
    split at h
    · cases h
    · rename_i parsed hparsed
      obtain ⟨hpassed,rfl⟩ := checkConfig_ok_iff.mp h
      exact (objections_iff_valid (hinitial.parseOptions hparsed)).mp hpassed
  · intro settings h
    rw [parseConfig,parseOptions_settings h]

/-- A queue and two numbers of producers, of which the last one counts. -/
theorem parse_config_exact_repeated :
    parseConfig ([.queue "mpmc",.producers 2,.producers 4].flatMap Setting.typed)=
      .ok {Config.initial with queue := "mpmc", producers := 4} := by
  have hfits : ∀ setting ∈ [Setting.queue "mpmc",.producers 2,.producers 4],setting.Fits := by
    simp [Setting.Fits]
  rw [parse_config_exact.2.2.1 _ hfits]
  decide +kernel

/-- The options that are not given. -/
example : parseConfig ["--queue","mpmc"]=.ok {Config.initial with queue := "mpmc"} := by
  decide +kernel

end Line64.StressConfig
