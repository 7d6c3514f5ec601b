import ZcashSdk.Lib.Effects
import ZcashSdk.Lib.Runs
import ZcashSdk.Shielded.Types

set_option autoImplicit false

/-!
# Opening a database

A database keeps the coin of its network among its properties. The pool of an open database
is found again by its path, its key and the file it was opened from.
-/
namespace ZcashSdk.Api
open Effects Runs
open Shielded (Bytes)

inductive Network where
  | main | test | regtest | zsaRegtest
  deriving DecidableEq

def networkFromCoin (coin : UInt8) : Network :=
  match coin.toNat with
  | 0 => .main
  | 1 => .test
  | 2 => .regtest
  | 3 => .zsaRegtest
  | _ => .main

structure Coin where
  coin : UInt8
  account : ℕ
  dbFilepath : String
  url : String
  serverType : UInt8
  transport : UInt8
  proxy : String

def Coin.network (c : Coin) : Network := networkFromCoin c.coin

def Coin.new (defaultCoin : Option UInt8) : Coin :=
  ⟨defaultCoin.getD 0, 0, "", "", 0, 0, ""⟩

/-! ### Properties as text -/

/-- One digit of a number below `bound`. -/
def pushDigit (bound n : ℕ) (c : Char) : Except String ℕ :=
  if !c.isDigit then .error "invalid digit found in string"
  else if bound ≤ n * 10 + (c.toNat - 48) then .error "number too large to fit in target type"
  else .ok (n * 10 + (c.toNat - 48))

def parseUnsigned (bound : ℕ) (s : String) : Except String ℕ :=
  match s.toList with
  | [] => .error "cannot parse integer from empty string"
  | ['+'] => .error "invalid digit found in string"
  | '+' :: digits => digits.foldlM (pushDigit bound) 0
  | digits => digits.foldlM (pushDigit bound) 0

def parseU8 (s : String) : Except String UInt8 := (parseUnsigned 256 s).map UInt8.ofNat

theorem parseU8_toString (c : UInt8) : parseU8 (toString c.toNat) = .ok c := by
  have hparse : ∀ n < 256, parseUnsigned 256 (toString n) = .ok n := by decide +kernel
  rw [parseU8, hparse c.toNat c.toNat_lt]
  simp [Except.map]

/-! ### Files and pools -/

structure DbFile where
  coin : Option String
  account : Option String

structure OpenPool where
  closed : Bool
  keyDigest : Bytes
  fileId : Option ℕ

/-- The file at each path, what is stored in each file, and the pools. -/
structure World where
  fileAt : String → Option ℕ
  files : ℕ → DbFile
  pools : String → Option OpenPool

namespace World

def coinAt (path : String) (w : World) : Option String := (w.fileAt path).bind fun f => (w.files f).coin

def accountAt (path : String) (w : World) : Option String :=
  (w.fileAt path).bind fun f => (w.files f).account

/-- A database that is not there is created as the file `newFile`. -/
def create (path : String) (newFile : ℕ) (w : World) : World :=
  match w.fileAt path with
  | some _ => w
  | none =>
    { w with
      fileAt := Function.update w.fileAt path (some newFile)
      files := Function.update w.files newFile ⟨none, none⟩ }

def putCoin (path value : String) (w : World) : World :=
  match w.fileAt path with
  | some f => { w with files := Function.update w.files f { w.files f with coin := some value } }
  | none => w

def insertPool (path : String) (keyDigest : Bytes) (w : World) : World :=
  { w with pools := Function.update w.pools path (some ⟨false, keyDigest, w.fileAt path⟩) }

/-- A pool never serves a deleted or replaced file, or another key. -/
def serves (path : String) (keyDigest : Bytes) (w : World) : Bool :=
  match w.pools path with
  | some pool =>
    !pool.closed && pool.keyDigest == keyDigest && pool.fileId.isSome &&
      w.fileAt path == pool.fileId
  | none => false

end World

/-- What the system makes of an open: a connection, the schema, and what is put in order once
    the database is open, each of which may fail. -/
structure Environment where
  newFile : ℕ
  connects : Except String Unit
  acquires : Except String Unit
  migrates : Except String Unit

def contains (path pat : String) : Bool := decide (pat.toList <:+: path.toList)

def pathCoin (path : String) : String :=
  if contains path "testnet" then "1"
  else if contains path "zsa" then "3"
  else if contains path "regtest" then "2"
  else "0"

def hexEncode (key : Bytes) : String :=
  .ofList (key.flatMap fun b => [Nat.digitChar (b.toNat / 16), Nat.digitChar (b.toNat % 16)])

section Open
variable (digest : Option String → Bytes)

/-- What a new pool records: the coin that was asked for, or the one that the path names. -/
def coinValue (path : String) : Option UInt8 → String
  | some coin => toString coin.toNat
  | none => pathCoin path

def tryOpen (env : Environment) (path : String) (hintCoin : Option UInt8) :
    Prog World String Unit := do
  Prog.lift env.connects
  Prog.modify fun w => (w.create path env.newFile).putCoin path (coinValue path hintCoin)

def openPool (env : Environment) (path : String) (keyPragma : Option String)
    (hintCoin : Option UInt8) : Prog World String Unit := do
  let served ← Prog.query (World.serves path (digest keyPragma))
  if served then pure ()
  else do
    tryOpen env path hintCoin
    Prog.modify (World.insertPool path (digest keyPragma))

def openWithKeyPragma (env : Environment) (self : Coin) (path : String)
    (keyPragma : Option String) : Prog World String Coin := do
  let hintCoin := if self.coin ≠ 0 then some self.coin else none
  openPool digest env path keyPragma hintCoin
  Prog.lift env.acquires
  let defaultCoin := if self.coin = 2 ∧ contains self.dbFilepath.toLower "zsa" then 3 else self.coin
  let coin ← Prog.query (World.coinAt path)
  let coin ← Prog.lift (parseU8 (coin.getD (toString defaultCoin.toNat)))
  let account ← Prog.query (World.accountAt path)
  let account ← Prog.lift (parseUnsigned (2 ^ 32) (account.getD "0"))
  Prog.lift env.migrates
  pure { self with coin, account, dbFilepath := path }

def keyPragma (dbKey : Option Bytes) : Option String :=
  dbKey.map fun key => "\"x'" ++ hexEncode key ++ "'\""

def openDatabaseWithKey (env : Environment) (self : Coin) (path : String)
    (dbKey : Option Bytes) : Prog World String Coin :=
  if dbKey.all fun key => key.length == 32 then
    openWithKeyPragma digest env self path (keyPragma dbKey)
  else Prog.lift (.error "database key must be 32 bytes")

end Open

/-! ### One open -/

section Request
variable (digest : Option String → Bytes)

structure Request where
  env : Environment
  self : Coin
  path : String
  dbKey : Option Bytes

namespace Request

def run (req : Request) : Prog World String Coin :=
  openDatabaseWithKey digest req.env req.self req.path req.dbKey

def served (req : Request) (w : World) : Bool :=
  w.serves req.path (digest (keyPragma req.dbKey))

def hintCoin (req : Request) : Option UInt8 :=
  if req.self.coin ≠ 0 then some req.self.coin else none

def opened (req : Request) (w : World) : World :=
  if req.served digest w then w
  else ((w.create req.path req.env.newFile).putCoin req.path
    (coinValue req.path req.hintCoin)).insertPool req.path
    (digest (keyPragma req.dbKey))

/-- Used where no coin is recorded. -/
def defaultCoin (req : Request) : UInt8 :=
  if req.self.coin = 2 ∧ contains req.self.dbFilepath.toLower "zsa" then 3 else req.self.coin

/-- Nothing else makes the open fail: the key's length, the system, or the account's number. -/
structure Succeeds (req : Request) (w : World) : Prop where
  key : ∀ key ∈ req.dbKey, key.length = 32
  connects : req.served digest w = false → req.env.connects = .ok ()
  acquires : req.env.acquires = .ok ()
  account : ∃ n, parseUnsigned (2 ^ 32) ((w.accountAt req.path).getD "0") = .ok n
  migrates : req.env.migrates = .ok ()

/-- The open fails, or the coin has the requested network and so has the recorded one. -/
def Honoured (req : Request) (w : World) : Prop :=
  ∀ coin w', req.run digest w = (.ok coin, w') →
    coin.network = req.self.network ∧
    ∀ v, w'.coinAt req.path = some v →
      ∃ c, parseU8 v = .ok c ∧ networkFromCoin c = req.self.network

/-- A pool that is served records no other network; a new one is not named after another. -/
def Agrees (req : Request) (w : World) : Prop :=
  if req.served digest w then
    match w.coinAt req.path with
    | some v => ∀ c, parseU8 v = .ok c → networkFromCoin c = req.self.network
    | none => ¬ (req.self.coin = 2 ∧ contains req.self.dbFilepath.toLower "zsa" = true)
  else req.self.coin ≠ 0 ∨ pathCoin req.path = "0"

end Request

variable {digest}

variable (digest) in
theorem accountAt_opened (req : Request) (w : World) :
    (req.opened digest w).accountAt req.path = w.accountAt req.path := by
  unfold Request.opened
  split
  next => rfl
  next =>
    cases hfile : w.fileAt req.path with
    | some f => simp [World.insertPool, World.create, World.putCoin, World.accountAt, hfile]
    | none => simp [World.insertPool, World.create, World.putCoin, World.accountAt, hfile]

theorem coinAt_opened (req : Request) (w : World) :
    (req.opened digest w).coinAt req.path =
      if req.served digest w then w.coinAt req.path else some (coinValue req.path req.hintCoin) := by
  unfold Request.opened
  split
  next => rfl
  next =>
    cases hfile : w.fileAt req.path with
    | some f => simp [World.insertPool, World.create, World.putCoin, World.coinAt, hfile]
    | none => simp [World.insertPool, World.create, World.putCoin, World.coinAt, hfile]

theorem openPool_eq_ok {req : Request} {w w' : World} :
    openPool digest req.env req.path (keyPragma req.dbKey) req.hintCoin w = (.ok (), w') ↔
      (req.served digest w = false → req.env.connects = .ok ()) ∧ w' = req.opened digest w := by
  rw [openPool, Prog.bind_of_ok (Prog.query_eq_ok.2 ⟨rfl, rfl⟩), Request.opened]
  cases hserved : req.served digest w with
  | true =>
    have hif : World.serves req.path (digest (keyPragma req.dbKey)) w = true := hserved
    rw [if_pos hif, if_pos rfl, Prog.pure_eq_ok]
    simp
  | false =>
    have hif : ¬ World.serves req.path (digest (keyPragma req.dbKey)) w = true := by
      rw [Bool.not_eq_true]
      exact hserved
    rw [if_neg hif, if_neg (by simp), Prog.bind_eq_ok]
    constructor
    · rintro ⟨_, v, htry, hpool⟩
      obtain ⟨_, _, hlift, hput⟩ := Prog.bind_eq_ok.1 htry
      obtain ⟨hconnects, rfl⟩ := Prog.lift_eq_ok.1 hlift
      rw [Prog.modify_eq_ok] at hput hpool
      exact ⟨fun _ => hconnects, by rw [hpool, hput]⟩
    · rintro ⟨hconnects, rfl⟩
      exact ⟨(), _, Prog.bind_eq_ok.2 ⟨(), w, Prog.lift_eq_ok.2 ⟨hconnects rfl, rfl⟩, rfl⟩, rfl⟩

theorem run_eq_ok {req : Request} {w w' : World} {coin : Coin} :
    req.run digest w = (.ok coin, w') ↔ req.Succeeds digest w ∧ w' = req.opened digest w ∧
      ∃ c n, parseU8 (((req.opened digest w).coinAt req.path).getD
          (toString req.defaultCoin.toNat)) = .ok c ∧
        parseUnsigned (2 ^ 32) ((w.accountAt req.path).getD "0") = .ok n ∧
        coin = { req.self with coin := c, account := n, dbFilepath := req.path } := by
  have hkey : (req.dbKey.all fun key => key.length == 32) = true ↔
      ∀ key ∈ req.dbKey, key.length = 32 := by
    cases req.dbKey <;> simp
  rw [Request.run, openDatabaseWithKey]
  split
  next hlen =>
    constructor
    · intro hrun
      obtain ⟨_, w₁, hopen, hrun⟩ := Prog.bind_eq_ok.1 hrun
      obtain ⟨hconnects, rfl⟩ := openPool_eq_ok.1 hopen
      obtain ⟨_, _, hacq, hrun⟩ := Prog.bind_eq_ok.1 hrun
      obtain ⟨hacquires, rfl⟩ := Prog.lift_eq_ok.1 hacq
      obtain ⟨_, _, hcoin, hrun⟩ := Prog.bind_eq_ok.1 hrun
      obtain ⟨rfl, rfl⟩ := Prog.query_eq_ok.1 hcoin
      obtain ⟨c, _, hparse, hrun⟩ := Prog.bind_eq_ok.1 hrun
      obtain ⟨hc, rfl⟩ := Prog.lift_eq_ok.1 hparse
      obtain ⟨_, _, haccount, hrun⟩ := Prog.bind_eq_ok.1 hrun
      obtain ⟨rfl, rfl⟩ := Prog.query_eq_ok.1 haccount
      obtain ⟨n, _, hparse, hrun⟩ := Prog.bind_eq_ok.1 hrun
      obtain ⟨hn, rfl⟩ := Prog.lift_eq_ok.1 hparse
      obtain ⟨_, _, hmig, hrun⟩ := Prog.bind_eq_ok.1 hrun
      obtain ⟨hmigrates, rfl⟩ := Prog.lift_eq_ok.1 hmig
      obtain ⟨rfl, rfl⟩ := Prog.pure_eq_ok.1 hrun
      rw [accountAt_opened] at hn
      exact ⟨⟨hkey.1 hlen, hconnects, hacquires, ⟨n, hn⟩, hmigrates⟩, rfl, c, n, hc, hn, rfl⟩
    · rintro ⟨hs, rfl, c, n, hc, hn, rfl⟩
      rw [← accountAt_opened digest] at hn
      refine Prog.bind_eq_ok.2 ⟨(), _, openPool_eq_ok.2 ⟨hs.connects, rfl⟩, ?_⟩
      refine Prog.bind_eq_ok.2 ⟨(), _, Prog.lift_eq_ok.2 ⟨hs.acquires, rfl⟩, ?_⟩
      refine Prog.bind_eq_ok.2 ⟨_, _, Prog.query_eq_ok.2 ⟨rfl, rfl⟩, ?_⟩
      refine Prog.bind_eq_ok.2 ⟨c, _, Prog.lift_eq_ok.2 ⟨hc, rfl⟩, ?_⟩
      refine Prog.bind_eq_ok.2 ⟨_, _, Prog.query_eq_ok.2 ⟨rfl, rfl⟩, ?_⟩
      refine Prog.bind_eq_ok.2 ⟨n, _, Prog.lift_eq_ok.2 ⟨hn, rfl⟩, ?_⟩
      exact Prog.bind_eq_ok.2 ⟨(), _, Prog.lift_eq_ok.2 ⟨hs.migrates, rfl⟩, rfl⟩
  next hlen =>
    rw [Prog.lift_eq_ok]
    constructor
    · rintro ⟨h, -⟩
      cases h
    · rintro ⟨hs, -⟩
      exact absurd (hkey.2 hs.key) hlen

theorem coinValue_hintCoin {req : Request} (h : req.self.coin ≠ 0) :
    coinValue req.path req.hintCoin = toString req.self.coin.toNat := by
  rw [Request.hintCoin, if_pos h, coinValue]

theorem coinValue_path {req : Request} (h : req.self.coin = 0) :
    coinValue req.path req.hintCoin = pathCoin req.path := by
  rw [Request.hintCoin, if_neg (not_not.2 h), coinValue]

theorem network_pathCoin (path : String) : ∃ c, parseU8 (pathCoin path) = .ok c ∧
    (networkFromCoin c = .main ↔ pathCoin path = "0") := by
  unfold pathCoin
  split_ifs
  · exact ⟨1, by decide, by decide⟩
  · exact ⟨3, by decide, by decide⟩
  · exact ⟨2, by decide, by decide⟩
  · exact ⟨0, by decide, by decide⟩

/-- The coin that the properties give after an open is the requested one exactly when the
    database agrees. -/
theorem network_opened_iff {req : Request} {w : World} : req.Agrees digest w ↔
    ∀ c, parseU8 (((req.opened digest w).coinAt req.path).getD
      (toString req.defaultCoin.toNat)) = .ok c → networkFromCoin c = req.self.network := by
  rw [coinAt_opened, Request.Agrees]
  split
  next =>
    cases w.coinAt req.path with
    | some v => rfl
    | none =>
      rw [Option.getD_none, parseU8_toString]
      simp only [Except.ok.injEq, forall_eq', Request.defaultCoin]
      split
      next h => simp [h, Coin.network, networkFromCoin]
      next h => simp [h, Coin.network]
  next =>
    rw [Option.getD_some]
    by_cases hcoin : req.self.coin = 0
    · obtain ⟨c, hparse, hmain⟩ := network_pathCoin req.path
      rw [coinValue_path hcoin, hparse]
      simp only [hcoin, Except.ok.injEq, forall_eq', Coin.network, ne_eq, not_true_eq_false,
        false_or]
      exact hmain.symm
    · rw [coinValue_hintCoin hcoin, parseU8_toString]
      simp [hcoin, Coin.network]

theorem honoured_iff {req : Request} {w : World} : req.Honoured digest w ↔
    (req.Succeeds digest w → req.Agrees digest w) := by
  rw [network_opened_iff]
  constructor
  · intro h hs c hc
    obtain ⟨n, hn⟩ := hs.account
    exact (h _ _ (run_eq_ok.2 ⟨hs, rfl, c, n, hc, hn, rfl⟩)).1
  · intro h coin w' hrun
    obtain ⟨hs, rfl, c, n, hc, hn, rfl⟩ := run_eq_ok.1 hrun
    refine ⟨h hs c hc, fun v hv => ⟨c, ?_, h hs c hc⟩⟩
    rw [hv] at hc
    exact hc

/-! ### Runs -/

/-- Databases are opened and closed, and files and what they hold change by other hands. -/
inductive Event where
  | openDatabase (req : Request)
  | closePool (path : String)
  | outside (fileAt : String → Option ℕ) (files : ℕ → DbFile)

variable (digest)

def step (w : World) : Event → Option World
  | .openDatabase req => some (req.run digest w).2
  | .closePool path => some { w with pools := Function.update w.pools path none }
  | .outside fileAt files => some { w with fileAt, files }

def Honours (w : World) : Event → Prop
  | .openDatabase req => req.Honoured digest w
  | _ => True

/-- Where an open succeeds, the database agrees with the request. -/
def Meets (w : World) : Event → Prop
  | .openDatabase req => req.Succeeds digest w → req.Agrees digest w
  | _ => True

/-- Every open of a run is honoured exactly when each that succeeds is served a pool of the
    requested network, or makes a new one that is not named after another network. -/
theorem opens_honoured_iff (w : World) (events : List Event) :
    AllSteps (step digest) (Honours digest) w events ↔
      AllSteps (step digest) (Meets digest) w events := by
  have hmeets : ∀ t e, Honours digest t e ↔ Meets digest t e := by
    intro t e
    cases e with
    | openDatabase req => exact honoured_iff
    | closePool => rfl
    | outside => rfl
  simp only [allSteps_iff, hmeets]

end Request

def calm : Environment := ⟨7, .ok (), .ok (), .ok ()⟩

def noDatabases : World := ⟨fun _ => none, fun _ => ⟨none, none⟩, fun _ => none⟩

/-- An open for the main network of a database in a directory named after the other one, and
    one for the test network of a database that is open for the main network. -/
theorem other_network_opened :
    let first := openDatabaseWithKey (fun _ => []) calm (.new (some 0)) "/zsa/a.db" none noDatabases
    let main := openDatabaseWithKey (fun _ => []) calm (.new (some 0)) "/a.db" none noDatabases
    let again := openDatabaseWithKey (fun _ => []) calm (.new (some 1)) "/a.db" none main.2
    first.1.toOption.map Coin.network = some .zsaRegtest ∧
      first.2.coinAt "/zsa/a.db" = some "3" ∧
      again.1.toOption.map Coin.network = some .main := by
  decide

end ZcashSdk.Api
