import PerfectHash.Dict

/-! # The front end (`script/pperf.PL`)

`GetOptions` stores the command line in a hash. `pperf` writes the hash out as a list, in the order
`keys` yields, and calls `Perfect::Hash::new` with the key file and that list. `new` takes the
first entry of the list for the algorithm and leaves the others to the class it picks. -/

namespace PerfectHash.Pperf

/-- What stands behind the name in a specification of `GetOptions`. -/
inductive Kind where
  /-- nothing: the option stores 1 -/
  | flag
  /-- `!`: the option stores 1, with `no-` before its name 0 -/
  | negatable
  /-- `=s`: the option stores its argument -/
  | string

/-- A value of the option hash. -/
inductive Value where
  | num (n : Nat)
  | str (s : String)
deriving DecidableEq

/-- The values `GetOptions` stores for an option. -/
def Kind.stores : Kind → Value → Bool
  | .flag, .num n => n = 1
  | .negatable, .num n => n ≤ 1
  | .string, .str _ => true
  | _, _ => false

/-- The specifications `pperf` passes to `GetOptions`. -/
def specs : List (String × Kind) :=
  [("help", .flag), ("hanovpp", .flag), ("hanov", .flag), ("urban", .flag), ("pearson", .flag),
    ("pearson8", .flag), ("pearsonnp", .flag),
    ("cmph-bdz_ph", .flag), ("cmph-bdz", .flag), ("cmph-bmz", .flag), ("cmph-chm", .flag),
    ("cmph-fch", .flag), ("cmph-chd_ph", .flag), ("cmph-chd", .flag),
    ("false-positives", .negatable), ("nul", .flag), ("7bit", .flag), ("prefix", .string),
    ("for-c", .negatable), ("for-xs", .flag), ("for-java", .flag), ("for-ruby", .flag),
    ("for-python", .flag), ("for-php", .flag), ("for-pecl", .flag), ("ignore-case", .flag),
    ("unicode-ignore-case", .flag), ("optimal-speed", .flag), ("optimal-size", .flag),
    ("minimal", .flag)]

/-- The hash `$options` after `GetOptions`, its entries in the order `keys` yields. -/
structure OptionHash where
  entries : List (String × Value)
  nodup : (entries.map Prod.fst).Nodup
  stored : ∀ e ∈ entries, (specs.lookup e.1).any (·.stores e.2) = true

/-- `keys %$options` -/
def OptionHash.names (options : OptionHash) : List String := options.entries.map Prod.fst

/-- The truth of a value. -/
def Value.truthy : Value → Bool
  | .num n => n ≠ 0
  | .str s => s ≠ "" ∧ s ≠ "0"

/-- `opt` -/
def OptionHash.opt (options : OptionHash) (opt : String) : Bool :=
  (options.entries.lookup opt).any Value.truthy

/-- `$options->{$_} == 1`, where `isOne` is the comparison of a string with 1. -/
def Value.eqOne (isOne : String → Bool) : Value → Bool
  | .num n => n = 1
  | .str s => isOne s

/-- A value as an argument. -/
def Value.text : Value → String
  | .num n => toString n
  | .str s => s

/-- `map { ("-".$_, $options->{$_} == 1 ? () : $options->{$_}) } keys %$options` -/
def OptionHash.toArgs (isOne : String → Bool) (options : OptionHash) : List String :=
  options.entries.flatMap fun (name, value) =>
    ("-" ++ name) :: if value.eqOne isOne then [] else [value.text]

/-! ## `Perfect::Hash::new` -/

/-- `@algos` -/
def algos : List String :=
  ["HanovPP", "Hanov", "Urban",
    "Pearson", "PearsonNP", "Pearson8", "Pearson32", "Pearson16",
    "CMPH::BDZ_PH", "CMPH::BDZ", "CMPH::BMZ", "CMPH::CHM",
    "CMPH::FCH", "CMPH::CHD_PH", "CMPH::CHD",
    "Switch", "Gperf", "Bob", "Cuckoo"]

/-- The substitution of `-` for every `::`. -/
def dashes : List Char → List Char
  | ':' :: ':' :: cs => '-' :: dashes cs
  | c :: cs => c :: dashes cs
  | [] => []

/-- `%algo_methods` -/
def algoMethods : List (String × String) :=
  algos.map fun m => (String.ofList ((dashes m.toList).map Char.toLower), "Perfect::Hash::" ++ m)

/-- `find_best_method`, which does not look at its arguments. -/
def findBestMethod : String := "Perfect::Hash::HanovPP"

/-- The class of an algorithm option. -/
def methodOf (option : String) : Option String :=
  match option.toList with
  | '-' :: name => algoMethods.lookup (String.ofList name)
  | _ => none

/-- `new` behind the dictionary: the class whose `new` it calls and the arguments of that call.
An absent option reads as `""`. -/
def new : List String → String × List String
  | [] => (findBestMethod, [""])
  | option :: rest =>
    match methodOf option with
    | some method => (method, rest)
    | none => (findBestMethod, option :: rest)

/-- The call of `new` in `pperf` with a key file; with `--help` the program ends before it. -/
def pperf (isOne : String → Bool) (options : OptionHash) : Option (String × List String) :=
  if options.opt "help" then none else some (new (options.toArgs isOne))

/-- The algorithm flags of an option hash, those `%algo_methods` has a class for. -/
def OptionHash.algoFlags (options : OptionHash) : List String :=
  options.names.filter fun name => (algoMethods.lookup name).isSome

/-- The table is built with the class of `flag`. -/
def Builds (isOne : String → Bool) (options : OptionHash) (flag : String) : Prop :=
  ∃ method args, algoMethods.lookup flag = some method ∧
    pperf isOne options = some (method, args)

/-! ## The classes -/

section
variable {f name method : String}

theorem algoMethods_nodup : (algoMethods.map Prod.snd).Nodup := by decide +kernel

theorem mem_of_lookup {l : List (String × α)} {a : α} (h : l.lookup name = some a) :
    (name, a) ∈ l := by
  obtain ⟨l₁, l₂, rfl, -⟩ := List.lookup_eq_some_iff.mp h
  exact List.mem_append_right _ List.mem_cons_self

/-- No two flags have one class. -/
theorem algoMethods_inj (hf : algoMethods.lookup f = some method)
    (hname : algoMethods.lookup name = some method) : f = name :=
  congrArg Prod.fst <|
    List.inj_on_of_nodup_map algoMethods_nodup (mem_of_lookup hf) (mem_of_lookup hname) rfl

theorem lookup_hanovpp : algoMethods.lookup "hanovpp" = some findBestMethod := by decide +kernel

theorem methodOf_dash (name : String) : methodOf ("-" ++ name) = algoMethods.lookup name := by
  have h : ("-" ++ name).toList = '-' :: name.toList := by simp
  rw [methodOf, h]
  exact congrArg (algoMethods.lookup ·) String.ofList_toList

end

/-! ## The option hash -/

namespace OptionHash
variable {options : OptionHash} {f name method : String} {isOne : String → Bool}

/-- The flag `--help` stores nothing but 1. -/
theorem opt_help : options.opt "help" = true ↔ "help" ∈ options.names := by
  unfold opt
  constructor
  · intro h
    obtain ⟨value, hvalue, -⟩ := (Option.any_eq_true _ _).mp h
    exact List.mem_map_of_mem (f := Prod.fst) (mem_of_lookup hvalue)
  · intro h
    obtain ⟨e, he, hname⟩ := List.mem_map.mp h
    have hsome : (options.entries.lookup "help").isSome = true :=
      List.lookup_isSome_iff.mpr ⟨e, he, by simp [hname]⟩
    obtain ⟨value, hvalue⟩ := Option.isSome_iff_exists.mp hsome
    have hstored : (specs.lookup "help").any (·.stores value) = true :=
      options.stored _ (mem_of_lookup hvalue)
    have hone : Kind.flag.stores value = true := hstored
    rw [hvalue]
    cases value with
    | num n =>
      have hn : n = 1 := by simpa [Kind.stores] using hone
      rw [hn]; rfl
    | str s => simp [Kind.stores] at hone

theorem num_le_one {n : Nat} (h : (name, .num n) ∈ options.entries) : n ≤ 1 := by
  obtain ⟨kind, -, hstores⟩ := (Option.any_eq_true _ _).mp (options.stored _ h)
  cases kind with
  | flag => exact (of_decide_eq_true hstores).le
  | negatable => exact of_decide_eq_true hstores
  | string => exact absurd hstores Bool.false_ne_true

theorem mem_algoFlags :
    f ∈ options.algoFlags ↔ f ∈ options.names ∧ ∃ method, algoMethods.lookup f = some method := by
  rw [algoFlags, List.mem_filter, Option.isSome_iff_exists]

/-- The list begins with the option that `keys` yields first. -/
theorem toArgs_of_head? (h : options.names.head? = some name) :
    ∃ rest, options.toArgs isOne = ("-" ++ name) :: rest := by
  obtain ⟨entries, _, _⟩ := options
  cases entries with
  | nil => simp [names] at h
  | cons e entries =>
    obtain rfl : e.1 = name := by simpa [names] using h
    exact ⟨_, List.flatMap_cons⟩

theorem dash_mem_toArgs (h : name ∈ options.names) : ("-" ++ name) ∈ options.toArgs isOne := by
  obtain ⟨e, he, rfl⟩ := List.mem_map.mp h
  exact List.mem_flatMap.mpr ⟨e, he, List.mem_cons_self⟩

/-- A flag that comes first picks its class. -/
theorem new_of_first (h : options.names.head? = some f)
    (hmethod : algoMethods.lookup f = some method) :
    ∃ args, new (options.toArgs isOne) = (method, args) := by
  obtain ⟨rest, hrest⟩ := toArgs_of_head? h
  exact ⟨rest, by rw [hrest, new, methodOf_dash, hmethod]⟩

/-- Behind any other option no flag picks a class, and the whole list goes to the default one. -/
theorem new_of_other (h : options.names.head? = some name)
    (hnone : algoMethods.lookup name = none) :
    new (options.toArgs isOne) = (findBestMethod, options.toArgs isOne) := by
  obtain ⟨rest, hrest⟩ := toArgs_of_head? h
  rw [hrest, new, methodOf_dash, hnone]

/-- Of the options of a hash with one algorithm flag the first is this flag or none. -/
theorem head?_of_algoFlags (hf : options.algoFlags = [f]) :
    options.names.head? = some f ∨
      ∃ name ≠ f, options.names.head? = some name ∧ algoMethods.lookup name = none := by
  have hmem : f ∈ options.names := (mem_algoFlags.mp (hf ▸ List.mem_singleton_self f)).1
  obtain ⟨name, hname⟩ := Option.isSome_iff_exists.mp <|
    List.isSome_head?.mpr (List.ne_nil_of_mem hmem)
  by_cases hne : name = f
  · exact .inl (hne ▸ hname)
  · refine .inr ⟨name, hne, hname, Option.eq_none_iff_forall_ne_some.mpr fun method h => hne ?_⟩
    have : name ∈ options.algoFlags :=
      mem_algoFlags.mpr ⟨List.mem_of_head? hname, method, h⟩
    exact List.mem_singleton.mp (hf ▸ this)

theorem pperf_eq_some {call : String × List String} : pperf isOne options = some call ↔
    "help" ∉ options.names ∧ new (options.toArgs isOne) = call := by
  rw [← opt_help, Bool.not_eq_true, pperf]
  cases options.opt "help" <;> simp

/-- `-max-time`, `-size` and `-dict` are no options of `pperf`, so that none of its options is read
as the argument of another. -/
theorem toArgs_takes_none
    (hstr : ∀ e ∈ options.entries, ∀ s, e.2 = .str s → s ∉ ["-max-time", "-size", "-dict"]) :
    ∀ arg ∈ options.toArgs isOne, arg ∉ ["-max-time", "-size", "-dict"] := by
  intro arg harg
  obtain ⟨⟨name, value⟩, he, harg⟩ := List.mem_flatMap.mp harg
  rcases List.mem_cons.mp harg with rfl | harg
  · intro hmem
    have hname : name ∈ ["max-time", "size", "dict"] := by
      simpa [← String.toList_inj] using hmem
    have hnone : ∀ name ∈ ["max-time", "size", "dict"], specs.lookup name = none := by
      decide +kernel
    have hstored := options.stored _ he
    rw [hnone name hname] at hstored
    exact absurd hstored Bool.false_ne_true
  · split at harg
    · exact absurd harg List.not_mem_nil
    · rw [List.mem_singleton.mp harg]
      cases value with
      | num n =>
        obtain rfl | rfl : n = 0 ∨ n = 1 := by
          have := num_le_one he
          omega
        all_goals decide +kernel
      | str s => exact hstr _ he s rfl

end OptionHash

/-! ## The class of the table -/

section
variable {options : OptionHash} {f : String} {isOne : String → Bool}

open OptionHash

theorem Builds.hanovpp_or_first (hf : options.algoFlags = [f]) (h : Builds isOne options f) :
    f = "hanovpp" ∨ options.names.head? = some f := by
  obtain ⟨method, args, hmethod, hcall⟩ := h
  obtain ⟨-, hnew⟩ := pperf_eq_some.mp hcall
  rcases head?_of_algoFlags hf with hfirst | ⟨name, -, hfirst, hnone⟩
  · exact .inr hfirst
  · rw [new_of_other hfirst hnone, Prod.mk.injEq] at hnew
    exact .inl (algoMethods_inj hmethod (hnew.1 ▸ lookup_hanovpp))

theorem Builds.no_help (h : Builds isOne options f) : "help" ∉ options.names :=
  let ⟨_, _, _, hcall⟩ := h
  (pperf_eq_some.mp hcall).1

theorem builds_of_first (hf : options.algoFlags = [f]) (hhelp : "help" ∉ options.names)
    (hfirst : options.names.head? = some f) : Builds isOne options f := by
  obtain ⟨-, method, hmethod⟩ := mem_algoFlags.mp (hf ▸ List.mem_singleton_self f)
  obtain ⟨args, hnew⟩ := new_of_first hfirst hmethod
  exact ⟨method, args, hmethod, pperf_eq_some.mpr ⟨hhelp, hnew⟩⟩

/-- The default class is the one of `--hanovpp`. -/
theorem builds_hanovpp (hf : options.algoFlags = ["hanovpp"]) (hhelp : "help" ∉ options.names) :
    Builds isOne options "hanovpp" := by
  rcases head?_of_algoFlags hf with hfirst | ⟨name, -, hfirst, hnone⟩
  · exact builds_of_first hf hhelp hfirst
  · exact ⟨findBestMethod, _, lookup_hanovpp,
      pperf_eq_some.mpr ⟨hhelp, new_of_other hfirst hnone⟩⟩

/-- The table is built with the class of the only algorithm flag exactly if `--help` is not given
and the flag is `--hanovpp` or comes first. -/
theorem builds_iff (isOne : String → Bool) (hf : options.algoFlags = [f]) :
    Builds isOne options f ↔
      "help" ∉ options.names ∧ (f = "hanovpp" ∨ options.names.head? = some f) := by
  constructor
  · exact fun h => ⟨h.no_help, h.hanovpp_or_first hf⟩
  · rintro ⟨hhelp, rfl | hfirst⟩
    · exact builds_hanovpp hf hhelp
    · exact builds_of_first hf hhelp hfirst

/-- `keys` yields `nul` before `hanov`. -/
def nulHanov : OptionHash where
  entries := [("nul", .num 1), ("hanov", .num 1)]
  nodup := by decide
  stored := by decide +kernel

/-- `keys` yields `hanov` before `nul`. -/
def hanovNul : OptionHash where
  entries := [("hanov", .num 1), ("nul", .num 1)]
  nodup := by decide
  stored := by decide +kernel

theorem builds_iff_hanov : hanovNul.algoFlags = ["hanov"] ∧
    (Builds (fun _ => false) hanovNul "hanov" ↔ "help" ∉ hanovNul.names ∧
      ("hanov" = "hanovpp" ∨ hanovNul.names.head? = some "hanov")) :=
  ⟨by decide +kernel, builds_iff _ (by decide +kernel)⟩

/-- `pperf keyfile --hanov --nul` can build the table of `--hanovpp`. -/
theorem not_builds : ¬ ∀ (isOne : String → Bool) (options : OptionHash) (f : String),
    options.algoFlags = [f] → Builds isOne options f := by
  intro h
  obtain ⟨method, args, hmethod, hcall⟩ :=
    h (fun _ => false) nulHanov "hanov" (by decide +kernel)
  have hpperf : (pperf (fun _ => false) nulHanov).map Prod.fst = some findBestMethod := by
    decide +kernel
  rw [hcall] at hpperf
  obtain rfl : method = findBestMethod := Option.some.inj hpperf
  exact absurd hmethod (by decide +kernel)

/-- A flag that does not come first is an option of the default class, which does not know it. -/
theorem flag_passes (hf : options.algoFlags = [f]) (hhelp : "help" ∉ options.names)
    (hfirst : options.names.head? ≠ some f)
    (hstr : ∀ e ∈ options.entries, ∀ s, e.2 = .str s → s ∉ ["-max-time", "-size", "-dict"]) :
    ∃ args, pperf isOne options = some (findBestMethod, args) ∧
      (handleOpts args).has ("-" ++ f) = true := by
  obtain ⟨name, -, hname, hnone⟩ := (head?_of_algoFlags hf).resolve_left hfirst
  refine ⟨_, pperf_eq_some.mpr ⟨hhelp, new_of_other hname hnone⟩, ?_⟩
  have hmem : f ∈ options.names := (mem_algoFlags.mp (hf ▸ List.mem_singleton_self f)).1
  exact handleOpts_has (toArgs_takes_none hstr) (dash_mem_toArgs hmem)

theorem names_perm {order : OptionHash} (h : order.entries.Perm options.entries) :
    order.names.Perm options.names := h.map Prod.fst

/-- Whatever the order of the hash, the class is the one of the only algorithm flag exactly if
`--help` is not given and the flag is `--hanovpp` or the only option. -/
theorem builds_all_orders_iff (isOne : String → Bool) (hf : options.algoFlags = [f]) :
    (∀ order : OptionHash, order.entries.Perm options.entries → Builds isOne order f) ↔
      "help" ∉ options.names ∧ (f = "hanovpp" ∨ options.names = [f]) := by
  have hflags (order : OptionHash) (h : order.entries.Perm options.entries) :
      order.algoFlags = [f] :=
    List.perm_singleton.mp (hf ▸ (names_perm h).filter _)
  constructor
  · intro h
    refine ⟨(h options (.refl _)).no_help, or_iff_not_imp_left.mpr fun hne => ?_⟩
    have honly : ∀ name ∈ options.names, name = f := by
      intro name hname
      obtain ⟨e, he, rfl⟩ := List.mem_map.mp hname
      -- the order that begins with this option
      have hperm : (e :: options.entries.erase e).Perm options.entries :=
        (List.perm_cons_erase he).symm
      let order : OptionHash :=
        { entries := e :: options.entries.erase e
          nodup := (hperm.map Prod.fst).nodup_iff.mpr options.nodup
          stored := fun e' he' => options.stored e' (hperm.mem_iff.mp he') }
      have hfirst : order.names.head? = some f :=
        ((h order hperm).hanovpp_or_first (hflags order hperm)).resolve_left hne
      exact Option.some.inj hfirst
    have hmem : f ∈ options.names := (mem_algoFlags.mp (hf ▸ List.mem_singleton_self f)).1
    have hperm : options.names.Perm [f] :=
      (List.perm_ext_iff_of_nodup options.nodup (List.nodup_singleton f)).mpr fun name =>
        ⟨fun h => List.mem_singleton.mpr (honly name h), fun h => List.mem_singleton.mp h ▸ hmem⟩
    exact List.perm_singleton.mp hperm
  · rintro ⟨hhelp, h⟩ order hperm
    have hhelp' : "help" ∉ order.names := fun hmem => hhelp ((names_perm hperm).mem_iff.mp hmem)
    rcases h with rfl | honly
    · exact builds_hanovpp (hflags order hperm) hhelp'
    · have : order.names = [f] := List.perm_singleton.mp (honly ▸ names_perm hperm)
      exact builds_of_first (hflags order hperm) hhelp' (by rw [this]; rfl)

end

end PerfectHash.Pperf
