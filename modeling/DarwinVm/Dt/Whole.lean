import DarwinVm.Dt.Drivers
import DarwinVm.Dt.Iops

/-!
# The whole fixup

`fixup` of `dt_fixup.py`, with all passes in their order, and `main`: a tree from an IPSW is decoded,
made into one that the loader and the kernel take, and encoded. The passes that keep and number the
drivers and give regions to the coprocessors are in `Drivers.lean` and `Iops.lean`.
-/

namespace DarwinVm.Dt.Fixup

/-! ## Nodes -/

/-- How a fixup fails. -/
inductive Failure
  /-- `KeyError`, or `ValueError` of `__getitem__` -/
  | lookup (e : LookupError)
  /-- `f"child {child_name} not found in {self.props['name']}"` -/
  | notFound (child : Text) (node : Value)
  /-- `IndexError` -/
  | index
  /-- `ValueError` of `int` -/
  | number
  /-- `UnicodeDecodeError` -/
  | unicode
  /-- `"no fstab-ephemeral-recovery-data node to promote"` -/
  | notEphemeral
  /-- `"aic doesn't have a 'compatible' field"` -/
  | aic
  /-- `SystemExit`: the tree has already been patched -/
  | patched
  /-- An error of `decode_node` or `encode_node` -/
  | codec (e : Error)
  deriving DecidableEq

/-- A lookup, or an edit that looks nodes up only. -/
def lookup {α : Type} (x : Except LookupError α) : Except Failure α := x.mapError .lookup

/-- The loop of `__getitem__`. -/
def findChild (key : Text) (e : LookupError) : List Node → Except LookupError Node
  | [] => .error e
  | c :: cs =>
    match get nameKey c.items with
    | none => .error (.key nameKey)
    | some n => if n = .str key then .ok c else findChild key e cs

/-- `d[key]` -/
def child (key : Text) (d : Node) : Except Failure Node :=
  lookup (findChild key (missing key d) d.children)

/-- `d.props[k]` -/
def prop (k : Text) (d : Node) : Except Failure Value :=
  match get k d.items with
  | some v => .ok v
  | none => .error (.lookup (.key k))

/-- An edit of `d[key]` that may fail. -/
def within (key : Text) (f : Node → Except Failure Node) (d : Node) : Except Failure Node := do
  let c ← f (← child key d)
  lookup (onChild key (fun _ => .ok c) d)

/-- An edit of the node below `d` with the names. -/
def withinAll : List Text → (Node → Except Failure Node) → Node → Except Failure Node
  | [], f, d => f d
  | k :: ks, f, d => within k (withinAll ks f) d

/-- The properties of a node, after one assignment for each entry. -/
def assign (es : List Entry) (d : Node) : Node :=
  .node (es.foldl (fun ps e => put e.1 e.2 ps) d.items) d.children

/-- `d.props.pop(k, None)` -/
def pop (k : Text) (d : Node) : Node := .node (remove k d.items) d.children

/-- Assignments to the node below `d` with the names. -/
def set (names : List Text) (es : List Entry) (d : Node) : Except Failure Node :=
  withinAll names (fun c => .ok (assign es c)) d

/-- The loop of `remove_child`. -/
def dropChild (key : Text) (e : Failure) : List Node → Except Failure (List Node)
  | [] => .error e
  | c :: cs =>
    match get nameKey c.items with
    | none => .error (.lookup (.key nameKey))
    | some n => if n = .str key then .ok cs else (dropChild key e cs).map (c :: ·)

/-- The error of `remove_child`, which tells the name of the node. -/
def notFound (key : Text) (d : Node) : Failure :=
  match get nameKey d.items with
  | none => .lookup (.key nameKey)
  | some n => .notFound key n

/-- `d.remove_child(key)` -/
def removeChild (key : Text) (d : Node) : Except Failure Node :=
  (dropChild key (notFound key d) d.children).map (.node d.items)

/-- `if key in d: ...` -/
def ifChild (key : Text) (f : Node → Except Failure Node) (d : Node) : Except Failure Node := do
  if ← lookup (containsChild key d.children) then f d else .ok d

/-! ## Names and values -/

/-- An entry of two texts. -/
def entry (k v : String) : Entry := (k.toList, .str v.toList)

/-- `f"{n}"` -/
def intText (n : ℤ) : Text := if n < 0 then '-' :: decimal n.natAbs else decimal n.natAbs

/-- `f"u32:{n}"` -/
def u32Value (n : ℕ) : Value := .str (u32 ++ decimal n)

/-- `f"u64:{n}"` -/
def u64Int (n : ℤ) : Value := .str (u64 ++ intText n)

/-- `struct.pack("<QQ", 0xffffffffffffffff, 0xffffffffffffffff)` -/
def unset : Value := .bytes (List.replicate 16 255)

def chosen : Text := "chosen".toList
def memoryMap : Text := "memory-map".toList
def cpus : Text := "cpus".toList
def cpu0 : Text := "cpu0".toList
def defaults : Text := "defaults".toList
def uart0 : Text := "uart0".toList
def sep : Text := "sep".toList
def sepPath : Text := "arm-io/sep".toList
def iopSepNub : Text := "iop-sep-nub".toList
def invalidateHmac : Text := "InvalidateHmac".toList
def xART : Text := "xART".toList
def aic : Text := "aic".toList
def sgx : Text := "sgx".toList
def dockchannelUart : Text := "dockchannel-uart".toList
def rtc : Text := "rtc".toList
def product : Text := "product".toList
def lockRegs : Text := "lock-regs".toList
def amcc : Text := "amcc".toList
def filesystems : Text := "filesystems".toList
def fstab : Text := "fstab".toList
def fstabDisk : Text := "fstab-disk".toList
def fstabEphemeral : Text := "fstab-ephemeral-recovery-data".toList

def routes : Text := "routes".toList
def platformKey : Text := "platform-name".toList
def socGeneration : Text := "soc-generation".toList
def firmwareVersion : Text := "firmware-version".toList
def randomSeedKey : Text := "random-seed".toList
def serialDevice : Text := "serial-device".toList
def phandle : Text := "AAPL,phandle".toList
def chipId : Text := "chip-id".toList
def mntopts : Text := "vol.fs_mntopts".toList
def fsName : Text := "vol.fs_name".toList
def maxFsEntries : Text := "max_fs_entries".toList
def functionWait : Text := "function-wait_for_power_gate".toList
def secureRootPrefix : Text := "secure-root-prefix".toList

/-- `IBOOT_NAME` -/
def ibootName : Value := .str "qemu-sptm".toList

/-! ## The passes -/

/-- What `main` reads of its arguments. -/
structure Options where
  /-- `KEEP_COMPAT_PATHS` -/
  keep : List Text
  /-- `DRAM_SIZE` -/
  dramSize : ℤ
  /-- `EPHEMERAL_DATA_BLOCKS` -/
  ephemeralDataBlocks : Option ℤ
  /-- `SKIP_KEYBAG` -/
  skipKeybag : Bool
  /-- `-development-activation` -/
  developmentActivation : Bool

/-- The second of the parts between commas, in the `compat` of `get_platform_name`. -/
def platformOf (compat : Value) : Except Failure Text := do
  let s ← match compat with
    | .str s => .ok s
    | .bytes b => match utf8Decode b with
      | some s => .ok s
      | none => .error .unicode
  match (s.splitOn ',')[1]? with
  | some p => .ok p
  | none => .error .index

/-- `get_platform_name` -/
def getPlatformName (d : Node) : Except Failure Text := do
  platformOf (← prop compatible (← child armIo d))

/-- `int(s)` -/
def int10 (s : Text) : Option ℤ :=
  match s.dropWhile isPySpace with
  | '-' :: s => (readNumber 10 s).map fun n : ℕ => -(n : ℤ)
  | '+' :: s => (readNumber 10 s).map fun n : ℕ => (n : ℤ)
  | s => (readNumber 10 s).map fun n : ℕ => (n : ℤ)

/-- `get_soc_gen` -/
def getSocGen (d : Node) : Except Failure ℤ := do
  match ← prop socGeneration (← child armIo d) with
  | .bytes _ => .ok 0
  | .str [] => .error .index
  | .str (c :: s) =>
    if c ≠ 'H' then .ok 0
    else match int10 s with
      | some n => .ok n
      | none => .error .number

/-- `d.props['platform-name']` -/
def setPlatformName (d : Node) : Except Failure Node := do
  .ok (assign [(platformKey, .str (← getPlatformName d))] d)

/-- The base and the size of the memory, and the names of the firmware. -/
def bootEntries (o : Options) (socGen : ℤ) : List Entry :=
  [entry "dram-base" (if socGen ≤ 14 then "u64:0x800000000" else "u64:0x10000000000"),
    ("dram-size".toList, u64Int o.dramSize),
    (firmwareVersion, ibootName),
    ("system-firmware-version".toList, ibootName)]

/-- `dram-base`, `dram-size` and the versions of the firmware. -/
def setBoot (o : Options) (d : Node) : Except Failure Node := do
  set [chosen] (bootEntries o (← getSocGen d)) d

/-- `len` of a value. -/
def Value.len : Value → ℕ
  | .str s => s.length
  | .bytes b => b.length

/-- `b'A' * len(...)` for the random seed. -/
def seedEntries (v : Value) : List Entry :=
  [(randomSeedKey, .bytes (List.replicate v.len 65)), entry "kernel-ctrr-to-be-enabled" "u32:0"]

def setRandomSeed (d : Node) : Except Failure Node :=
  withinAll [chosen] (fun c => do
    .ok (assign (seedEntries (← prop randomSeedKey c)) c)) d

/-- `serial-device` becomes the handle of `uart0`. -/
def setSerialDevice (d : Node) : Except Failure Node := do
  let v ← prop phandle (← child uart0 (← child armIo d))
  set [defaults] [(serialDevice, v)] d

/-- The frequencies of `cpu0`, all of them `FREQUENCY`. -/
def frequencyEntries : List Entry :=
  ["memory-frequency", "peripheral-frequency", "fixed-frequency", "clock-frequency",
    "timebase-frequency"].map fun k => entry k "u32:0x100000"

/-- The NVRAM. -/
def nvramEntries (nvram : Bytes) : List Entry :=
  [entry "nvram-bank-count" "u32:1", entry "nvram-current-bank" "u32:1",
    ("nvram-proxy-data".toList, .bytes nvram),
    ("nvram-total-size".toList, u32Value nvram.length),
    ("nvram-bank-size".toList, u32Value nvram.length)]

def hmacEntries : List Entry :=
  [entry "config" "u32:1", entry "sio-hmac1-offset" "u64:0",
    entry "sio-hmac1-disable-mask" "u64:0xffffffffffffffff"]

/-- The entries of `InvalidateHmac`, if the node is there. -/
def setInvalidateHmac (d : Node) : Except Failure Node :=
  withinAll [armIo, sep, iopSepNub] (ifChild invalidateHmac (set [invalidateHmac] hmacEntries)) d

/-- The placeholder for the clock, which is left out where the PMU is kept. -/
def rtcNode : Node := .node [(nameKey, .str rtc), entry "__placeholder_val" "<NULL>"] []

def addRtc (o : Options) (d : Node) : Node :=
  if spmiPath ∈ o.keep then d
  else
    let d := assign [entry "no-rtc" "<NULL>"] d
    .node d.items (d.children ++ [rtcNode])

def amccEntries : List Entry :=
  [entry "aperture-count" "u32:1", entry "aperture-size" "u32:0x4000", entry "plane-count" "u32:1",
    entry "plane-stride" "u32:0", entry "plane-size" "u32:0x4000",
    entry "aperture-phys-addr" "u64:0x220000000", entry "cache-status-reg-offset" "u32:0",
    entry "cache-status-reg-mask" "u32:0", entry "cache-status-reg-value" "u32:0"]

/-- The registers of the bank `i`, `AMCC_BANK_STRIDE` apart. -/
def ctrrEntries (i : ℕ) : List Entry :=
  [entry "page-size-shift" "u32:0",
    ("lower-limit-reg-offset".toList, u32Value (0x100 * i + 0x10)),
    ("upper-limit-reg-offset".toList, u32Value (0x100 * i + 0x20)),
    entry "upper-limit-reg-mask" "u32:0xFFFFFFFF", entry "lower-limit-reg-mask" "u32:0xFFFFFFFF",
    entry "lock-reg-offset" "u32:0", entry "lock-reg-mask" "u32:0", entry "lock-reg-value" "u32:0",
    entry "enable-reg-offset" "u32:0", entry "enable-reg-mask" "u32:1",
    entry "enable-reg-value" "u32:1", entry "write-disable-reg-offset" "u32:0",
    entry "write-disable-reg-mask" "u32:1", entry "write-disable-reg-value" "u32:1"]

/-- The banks of the memory controller. -/
def ctrrs : List (ℕ × Text) :=
  [(0, "amcc-ctrr-a".toList), (1, "amcc-ctrr-b".toList), (2, "amcc-ctrr-c".toList),
    (3, "amcc-ctrr-d".toList)]

def setAmcc (d : Node) : Except Failure Node :=
  withinAll [chosen, lockRegs, amcc]
    (fun a => ctrrs.foldlM (fun a b => set [b.2] (ctrrEntries b.1) a) (assign amccEntries a)) d

/-- One turn of the loop in `drop_exclave_routes`. -/
def dropRoutes (c : Node) : Node :=
  if get compatible c.items = none then c else mapChildren (List.map (pop routes)) c

/-- `drop_exclave_routes` -/
def dropExclaveRoutes (d : Node) : Except Failure Node :=
  withinAll [armIo] (fun a => .ok (mapChildren (List.map dropRoutes) a)) d

/-- A digit in a pattern. -/
def isDigit (c : Char) : Bool := c.isDigit

/-- `re.sub(r'size=\d+', f'size={size_blocks}', opts)`, from where `n` more characters belong to a
match. The digits of an option are ASCII. -/
def resize (blocks : ℤ) : ℕ → Text → Text
  | _, [] => []
  | n + 1, _ :: s => resize blocks n s
  | 0, c :: s =>
    let digits := ((c :: s).drop 5).takeWhile isDigit
    if "size=".toList <+: c :: s ∧ digits ≠ [] then
      "size=".toList ++ intText blocks ++ resize blocks (4 + digits.length) s
    else c :: resize blocks 0 s

/-- The options of a volume that name a size. -/
def resizeVolume (blocks : ℤ) (vol : Node) : Node :=
  match get mntopts vol.items with
  | some (.str opts) =>
    if "size=".toList <:+: opts then assign [(mntopts, .str (resize blocks 0 opts))] vol else vol
  | _ => vol

/-- `fixup_ephemeral_data`, in the node of the filesystems. -/
def promote (blocks : ℤ) (fs : Node) : Except Failure Node := do
  if ← lookup (containsChild fstabEphemeral fs.children) then
    let fs ← set [fstab] [(nameKey, .str fstabDisk)] fs
    withinAll [fstabEphemeral] (fun eph =>
      .ok (mapChildren (List.map (resizeVolume blocks)) (assign [(nameKey, .str fstab)] eph))) fs
  else .error .notEphemeral

/-- `fixup_ephemeral_data`, if it is asked for. -/
def fixupEphemeralData (o : Options) (d : Node) : Except Failure Node :=
  match o.ephemeralDataBlocks with
  | none => .ok d
  | some blocks => withinAll [filesystems] (promote blocks) d

/-- `fixup_skip_keybag`, if it is asked for. -/
def fixupSkipKeybag (o : Options) (d : Node) : Except Failure Node :=
  if o.skipKeybag then set [product] [entry "boot-ios-diagnostics" "u32:1"] d else .ok d

/-- The digits of a number in base 16. -/
def hexDigits (s : Text) : Option ℕ :=
  if s = [] then none else (s.mapM (digitOf 16)).map fun ds => ds.foldl (fun n d => 16 * n + d) 0

/-- `chip-id`, if the platform's name spells a number. -/
def chipEntries (platform : Text) : Except Failure (List Entry) :=
  match platform with
  | 't' :: s =>
    if s.all fun c => (digitOf 16 c).isSome then
      match hexDigits s with
      | some n => .ok [(chipId, .str (u32 ++ pyHex n))]
      | none => .error .number
    else .ok []
  | _ => .ok []

/-- `fixup_sep` -/
def fixupSep (o : Options) (d : Node) : Except Failure Node := do
  if sepPath ∉ o.keep then withinAll [armIo] (ifChild sep (removeChild sep)) d
  else
    let d ← withinAll [armIo, sep, iopSepNub] (fun n => .ok
      (assign [entry "sepfw-loaded" "u32:0x1"] <| pop functionWait <|
        assign [entry "rom-panic-bytes" "u32:0x100"] n)) d
    let d ← set [chosen, memoryMap] [("SEPFW".toList, unset)] d
    let d ← set [chosen] [entry "sepfw-load-at-boot" "u32:0x0"] d
    let d ← set [chosen] (← chipEntries (← getPlatformName d)) d
    withinAll [armIo, sep, iopSepNub] (ifChild xART (removeChild xART)) d

/-- The volumes that cannot be provided. -/
def unavailable : List Text := ["xART".toList, "Baseband-Data".toList, "Update".toList]

/-- The volume can be provided. -/
def Available (v : Node) : Prop := ∀ n ∈ unavailable, get fsName v.items ≠ some (.str n)

instance (v : Node) : Decidable (Available v) :=
  inferInstanceAs (Decidable (∀ n ∈ unavailable, _))

/-- The table without the volumes that cannot be provided. -/
def dropUnavailable (tab : Node) : Node :=
  let vs := tab.children.filter fun v => Available v
  if vs.length < tab.children.length ∧ get maxFsEntries tab.items ≠ none then
    .node (put maxFsEntries (u32Value vs.length) tab.items) vs
  else .node tab.items vs

/-- `fixup_fstab_drop_unavailable` -/
def fixupFstabDropUnavailable (d : Node) : Except Failure Node :=
  withinAll [filesystems] (ifChild fstab (withinAll [fstab] fun tab => .ok (dropUnavailable tab))) d

/-- `fixup_aic` -/
def fixupAic (d : Node) : Except Failure Node :=
  match get compatible d.items with
  | none => .error .aic
  | some v =>
    if utf8 "aic,2".toList <:+: compatBytes v ∨ utf8 "aic,3".toList <:+: compatBytes v then
      .ok (assign [entry "aic-iack-offset" "u64:0x1000"] d)
    else .ok d

/-- The regions that the loader fills in. -/
def regions : List Text :=
  ["TXM-ro", "TXM-rx", "TXM-bx", "TXM-rw", "TXM-le", "TXM-entry", "TXM-virt", "TrustCache",
    "BootKC-rx", "BootKC-bx", "BootKC-ro", "BootKC-rs", "BootKC-rw", "BootKC-le", "BootKC-virt",
    "BootKC-entry", "DeviceTree", "SPTM-ro", "SPTM-rm", "SPTM-rx", "SPTM-rw", "SPTM-le",
    "SPTM-entry", "SPTM-virt", "BootArgs", "slide", "CL4-rx", "CL4-ro", "CL4-rw", "CL4-le",
    "CL4-dummypage", "CL4-entry", "CL4-virt", "CL4-dummypage", "RAMDisk", "PurpleGfxMem"].map
    String.toList

def regionEntries : List Entry :=
  regions.map (·, unset) ++ [("slide".toList, .bytes (List.replicate 16 0))]

/-- `fixup_sptm` -/
def fixupSptm (d : Node) : Except Failure Node := do
  let d ← set [chosen, memoryMap] regionEntries d
  withinAll [armIo] (removeChild sgx) d

/-- `del d.props['secure-root-prefix']` -/
def dropSecureRootPrefix (d : Node) : Except Failure Node := do
  let _ ← prop secureRootPrefix d
  .ok (pop secureRootPrefix d)

/-- What `fixup` does to a tree, step by step. -/
def passes (o : Options) (nvram : Bytes) : List (Node → Except Failure Node) :=
  [setPlatformName,
    setBoot o,
    set [cpus, cpu0] [entry "state" "running"],
    setRandomSeed,
    setSerialDevice,
    set [cpus, cpu0] frequencyEntries,
    set [chosen] (nvramEntries nvram),
    setInvalidateHmac,
    withinAll [armIo] (removeChild dockchannelUart),
    fun d => .ok (addRtc o d),
    set [defaults] [entry "vmm-present" "u32:1"],
    setAmcc,
    fun d => lookup (delCompat o.keep [] d),
    fun d => lookup (fixupSpmi o.keep d),
    dropExclaveRoutes,
    fun d => lookup (fixupDarts d),
    fun d => lookup (fixupIops d),
    fixupEphemeralData o,
    fixupSkipKeybag o,
    fixupSep o,
    fixupFstabDropUnavailable,
    withinAll [armIo, aic] fixupAic,
    fixupSptm,
    dropSecureRootPrefix]

/-- `fixup` -/
def fixup (o : Options) (nvram : Bytes) (d : Node) : Except Failure Node := do
  let c ← child chosen d
  if get firmwareVersion c.items = some ibootName then .error .patched
  else (passes o nvram).foldlM (fun d pass => pass d) d

/-- `fixup_development_activation`, if it is asked for. -/
def fixupDevelopmentActivation (o : Options) (d : Node) : Except Failure Node := do
  if o.developmentActivation then
    let d ← set [chosen] [entry "debug-enabled" "u32:1"] d
    set [product] [entry "allow-hactivation" "u32:1"] d
  else .ok d

/-- `main`, from the tree that is read to the tree that is written. -/
def main (o : Options) (nvram dtree : Bytes) : Except Failure Bytes := do
  let (d, _) ← (decodeNode dtree).mapError .codec
  let d ← fixup o nvram d
  let d ← fixupDevelopmentActivation o d
  (encodeNode d).mapError .codec

/-! ## What is found -/

section

variable {key : Text} {d d' c : Node} {f : Node → Except Failure Node}

/-- The children before the one that a key finds. -/
def Passed (key : Text) (l : List Node) : Prop :=
  ∀ b ∈ l, ∃ n, get nameKey b.items = some n ∧ n ≠ .str key

theorem lookup_eq_ok_iff {α : Type} {x : Except LookupError α} {a : α} :
    lookup x = .ok a ↔ x = .ok a := by
  cases x with
  | error e => exact ⟨nofun, nofun⟩
  | ok b => exact ⟨fun h => congrArg _ (Except.ok.inj h), fun h => congrArg _ (Except.ok.inj h)⟩

theorem findChild_eq_ok_iff {e : LookupError} : ∀ {cs : List Node}, findChild key e cs = .ok c ↔
    ∃ l r, cs = l ++ c :: r ∧ get nameKey c.items = some (.str key) ∧ Passed key l
  | [] => by
    refine ⟨nofun, ?_⟩
    rintro ⟨l, r, h, -⟩
    cases l <;> cases h
  | b :: cs => by
    unfold findChild
    split
    · next hn =>
      refine ⟨nofun, ?_⟩
      rintro ⟨l, r, h, hc, hl⟩
      cases l with
      | nil =>
        obtain ⟨rfl, -⟩ := List.cons.inj h
        rw [hn] at hc
        cases hc
      | cons a l =>
        obtain ⟨rfl, -⟩ := List.cons.inj h
        obtain ⟨n, hn', -⟩ := hl b (List.mem_cons_self ..)
        rw [hn] at hn'
        cases hn'
    · next n hn =>
      split_ifs with h
      · subst h
        constructor
        · intro h
          obtain rfl := Except.ok.inj h
          exact ⟨[], cs, rfl, hn, nofun⟩
        · rintro ⟨l, r, h, hc, hl⟩
          cases l with
          | nil => rw [(List.cons.inj h).1]
          | cons a l =>
            obtain ⟨rfl, -⟩ := List.cons.inj h
            obtain ⟨n, hn', hne⟩ := hl b (List.mem_cons_self ..)
            rw [hn] at hn'
            exact absurd (Option.some.inj hn').symm hne
      · rw [findChild_eq_ok_iff]
        constructor
        · rintro ⟨l, r, rfl, hc, hl⟩
          exact ⟨b :: l, r, rfl, hc, List.forall_mem_cons.mpr ⟨⟨n, hn, h⟩, hl⟩⟩
        · rintro ⟨l, r, heq, hc, hl⟩
          cases l with
          | nil =>
            obtain ⟨rfl, -⟩ := List.cons.inj heq
            rw [hn] at hc
            exact absurd (Option.some.inj hc) h
          | cons a l =>
            obtain ⟨rfl, rfl⟩ := List.cons.inj heq
            exact ⟨l, r, rfl, hc, (List.forall_mem_cons.mp hl).2⟩

/-- A key finds the first child of its name, after children with other names. -/
theorem child_eq_ok_iff : child key d = .ok c ↔
    ∃ l r, d.children = l ++ c :: r ∧ get nameKey c.items = some (.str key) ∧ Passed key l := by
  unfold child
  rw [lookup_eq_ok_iff, findChild_eq_ok_iff]

theorem childAt_append {l r : List Node} (hc : get nameKey c.items = some (.str key))
    (hl : Passed key l) : ChildAt key (l ++ c :: r) l.length := by
  have hat : (l ++ c :: r)[l.length]? = some c := by simp
  refine ⟨⟨c, hat, hc⟩, fun j hj b hb => hl b ?_⟩
  rw [List.getElem?_append_left hj] at hb
  exact List.mem_of_getElem? hb

/-- An edit of a child edits the one that the key finds. -/
theorem within_eq_ok_iff : within key f d = .ok d' ↔ ∃ l c r c', d.children = l ++ c :: r ∧
    get nameKey c.items = some (.str key) ∧ Passed key l ∧ f c = .ok c' ∧
      d' = .node d.items (l ++ c' :: r) := by
  unfold within
  simp only [bind, bind_eq_ok, child_eq_ok_iff, lookup_eq_ok_iff, onChild_eq_ok_iff, Except.ok.injEq]
  constructor
  · rintro ⟨c, ⟨l, r, hd, hc, hl⟩, c', hf, i, b, _, hi, hb, rfl, rfl⟩
    refine ⟨l, c, r, c', hd, hc, hl, hf, ?_⟩
    rw [hd] at hi ⊢
    obtain rfl := hi.unique (childAt_append hc hl)
    rw [List.set_append_right _ _ le_rfl, Nat.sub_self, List.set_cons_zero]
  · rintro ⟨l, c, r, c', hd, hc, hl, hf, rfl⟩
    refine ⟨c, ⟨l, r, hd, hc, hl⟩, c', hf, l.length, c, c', ?_, ?_, rfl, ?_⟩
    · rw [hd]
      exact childAt_append hc hl
    · rw [hd]
      simp
    · rw [hd, List.set_append_right _ _ le_rfl, Nat.sub_self, List.set_cons_zero]

theorem dropChild_eq_ok {e : Failure} : ∀ {cs cs' : List Node}, dropChild key e cs = .ok cs' →
    ∃ l c r, cs = l ++ c :: r ∧ get nameKey c.items = some (.str key) ∧ cs' = l ++ r
  | [], _, h => nomatch h
  | b :: cs, cs', h => by
    unfold dropChild at h
    split at h
    · cases h
    · next n hn =>
      split_ifs at h with hk
      · obtain rfl := Except.ok.inj h
        exact ⟨[], b, cs, rfl, hk ▸ hn, rfl⟩
      · cases hd : dropChild key e cs with
        | error e => rw [hd] at h; cases h
        | ok cs₁ =>
          rw [hd] at h
          obtain rfl := Except.ok.inj h
          obtain ⟨l, c, r, rfl, hc, rfl⟩ := dropChild_eq_ok hd
          exact ⟨b :: l, c, r, rfl, hc, rfl⟩

/-- What is removed is a child of the name. -/
theorem removeChild_eq_ok (h : removeChild key d = .ok d') : ∃ l c r,
    d.children = l ++ c :: r ∧ get nameKey c.items = some (.str key) ∧
      d' = .node d.items (l ++ r) := by
  unfold removeChild at h
  cases hd : dropChild key (notFound key d) d.children with
  | error e => rw [hd] at h; cases h
  | ok cs =>
    rw [hd] at h
    obtain rfl := Except.ok.inj h
    obtain ⟨l, c, r, hl, hc, rfl⟩ := dropChild_eq_ok hd
    exact ⟨l, c, r, hl, hc, rfl⟩

theorem ifChild_eq_ok (h : ifChild key f d = .ok d') : f d = .ok d' ∨ d' = d := by
  unfold ifChild at h
  simp only [bind, bind_eq_ok] at h
  obtain ⟨b, -, h⟩ := h
  cases b with
  | false => exact Or.inr (Except.ok.inj h).symm
  | true => exact Or.inl h

theorem prop_eq_ok_iff {k : Text} {v : Value} : prop k d = .ok v ↔ get k d.items = some v := by
  unfold prop
  cases get k d.items with
  | none => exact ⟨nofun, nofun⟩
  | some w => exact ⟨fun h => congrArg _ (Except.ok.inj h), fun h => congrArg _ (Option.some.inj h)⟩

end

end DarwinVm.Dt.Fixup
