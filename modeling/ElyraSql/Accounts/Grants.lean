import ElyraSql.Engine.Value
import Mathlib.Data.Char

/-!
# Accounts, roles and grants

`elyra-core/src/users.rs` and `elyra-engine/src/users.rs`: accounts and what they are granted are
records under keys that are put together from names and the separator `::`. The grants of an account
are found by scanning for the keys that begin with its name. A name is the text of a token, so any
text at all: a quoted token holds what stands in the quotes.
-/

namespace ElyraSql.Accounts

open OrderedMap Engine

/-! ## Keys -/

/-- What joins the names of a key. -/
def sep : Text := [':', ':']

/-- The kinds of records, each with its own beginning of a key. -/
inductive Family
  | user | role | ugrant | tgrant | colgrant | rolemember
  deriving DecidableEq, Repr

def Family.text : Family → Text
  | .user => ['s', 'y', 's', ':', ':', 'u', 's', 'e', 'r', ':', ':']
  | .role => ['s', 'y', 's', ':', ':', 'r', 'o', 'l', 'e', ':', ':']
  | .ugrant => ['s', 'y', 's', ':', ':', 'u', 'g', 'r', 'a', 'n', 't', ':', ':']
  | .tgrant => ['s', 'y', 's', ':', ':', 't', 'g', 'r', 'a', 'n', 't', ':', ':']
  | .colgrant => ['s', 'y', 's', ':', ':', 'c', 'o', 'l', 'g', 'r', 'a', 'n', 't', ':', ':']
  | .rolemember => ['s', 'y', 's', ':', ':', 'r', 'o', 'l', 'e', 'm', 'e', 'm', 'b', 'e',
      'r', ':', ':']

/-- `str::to_ascii_lowercase`. -/
def lower (s : Text) : Text := s.map asciiLower

def asciiUpper (c : Char) : Char :=
  if 'a' ≤ c ∧ c ≤ 'z' then Char.ofNat (c.toNat - 32) else c

/-- `str::to_ascii_uppercase`. -/
def upper (s : Text) : Text := s.map asciiUpper

def userKey (name : Text) : Text := Family.user.text ++ name

/-- The mark of an account that is a role. -/
def roleFlagKey (role : Text) : Text := Family.role.text ++ role

def ugrantKey (user : Text) : Text := Family.ugrant.text ++ user

def tableGrantPrefix (user : Text) : Text := Family.tgrant.text ++ (user ++ sep)

def tableGrantKey (user table : Text) : Text := tableGrantPrefix user ++ lower table

/-- What the keys of an account's column grants begin with. -/
def accountColPrefix (user : Text) : Text := Family.colgrant.text ++ (user ++ sep)

def colGrantPrefix (user table : Text) : Text := accountColPrefix user ++ (lower table ++ sep)

def colGrantKey (user table column : Text) : Text := colGrantPrefix user table ++ lower column

def roleMemberPrefix (user : Text) : Text := Family.rolemember.text ++ (user ++ sep)

def roleMemberKey (user role : Text) : Text := roleMemberPrefix user ++ role

/-! ## Privileges -/

/-- The coarse levels, `Read < Write < Admin`. -/
inductive Privilege
  | read | write | admin
  deriving DecidableEq, Repr

namespace PrivBits

def select : UInt32 := 1
def insert : UInt32 := 2
def update : UInt32 := 4
def delete : UInt32 := 8
def create : UInt32 := 16
def drop : UInt32 := 32
def alter : UInt32 := 64
def index : UInt32 := 128
def truncate : UInt32 := 256
def references : UInt32 := 512
def grantOption : UInt32 := 1024

def write : UInt32 :=
  insert ||| update ||| delete ||| create ||| drop ||| alter ||| index ||| truncate ||| references

def all : UInt32 := select ||| write ||| grantOption

end PrivBits

/-- The actions that `privset_from_actions` knows, in upper case. -/
def actionBits : List (Text × UInt32) :=
  [(['A', 'L', 'L'], PrivBits.all),
   (['A', 'L', 'L', ' ', 'P', 'R', 'I', 'V', 'I', 'L', 'E', 'G', 'E', 'S'], PrivBits.all),
   (['G', 'R', 'A', 'N', 'T'], PrivBits.grantOption),
   (['G', 'R', 'A', 'N', 'T', ' ', 'O', 'P', 'T', 'I', 'O', 'N'], PrivBits.grantOption),
   (['S', 'U', 'P', 'E', 'R'], PrivBits.grantOption),
   (['A', 'D', 'M', 'I', 'N'], PrivBits.grantOption),
   (['S', 'E', 'L', 'E', 'C', 'T'], PrivBits.select),
   (['I', 'N', 'S', 'E', 'R', 'T'], PrivBits.insert),
   (['U', 'P', 'D', 'A', 'T', 'E'], PrivBits.update),
   (['D', 'E', 'L', 'E', 'T', 'E'], PrivBits.delete),
   (['C', 'R', 'E', 'A', 'T', 'E'], PrivBits.create),
   (['D', 'R', 'O', 'P'], PrivBits.drop),
   (['A', 'L', 'T', 'E', 'R'], PrivBits.alter),
   (['I', 'N', 'D', 'E', 'X'], PrivBits.index),
   (['T', 'R', 'U', 'N', 'C', 'A', 'T', 'E'], PrivBits.truncate),
   (['R', 'E', 'F', 'E', 'R', 'E', 'N', 'C', 'E', 'S'], PrivBits.references),
   (['W', 'R', 'I', 'T', 'E'], PrivBits.write)]

def privsetFromActions (actions : List Text) : UInt32 :=
  actions.foldl (fun bits a => bits ||| (actionBits.lookup (upper a)).getD 0) 0

def tierFromPrivset (bits : UInt32) : Privilege :=
  if bits &&& PrivBits.grantOption ≠ 0 then .admin
  else if bits &&& PrivBits.write ≠ 0 then .write
  else .read

def privsetFromTier : Privilege → UInt32
  | .read => PrivBits.select
  | .write => PrivBits.select ||| PrivBits.write
  | .admin => PrivBits.all

/-! ## Records -/

abbrev Record := List UInt8

def encodePrivset (bits : UInt32) : Record := RecordFile.leBytes 4 bits.toNat

def decodePrivset (b : Record) : UInt32 :=
  if b.length = 4 then UInt32.ofNat (RecordFile.ofLeBytes b) else 0

def Privilege.code : Privilege → Nat
  | .read => 0
  | .write => 1
  | .admin => 2

def Privilege.ofCode : Nat → Option Privilege
  | 0 => some .read
  | 1 => some .write
  | 2 => some .admin
  | _ => none

def encodePrivilege (p : Privilege) : Record := [UInt8.ofNat p.code]

def decodePrivilege (b : Record) : Option Privilege :=
  b.head?.bind fun x => Privilege.ofCode x.toNat

/-- `[u8; 20]`. -/
abbrev Digest := { b : List UInt8 // b.length = 20 }

structure UserRecord where
  digest : Digest
  privilege : Privilege

/-- `bincode::serialize` and `bincode::deserialize` of a record. -/
structure UserCodec where
  encodeUser : UserRecord → Record
  decodeUser : Record → Option UserRecord

/-! ## Reading grants -/

/-- The records of accounts and grants, in the order of their keys. -/
abbrev Records := OMap Text Record

/-- `scan_keys` and `schemacache::keys`: the keys that begin with `p`, in order. -/
def scanKeys (s : Records) (p : Text) : List Text :=
  (s.list fun k => p.isPrefixOf k).map Prod.fst

/-- The account exists and is marked as a role. -/
def isRole (s : Records) (role : Text) : Bool :=
  s.contains (roleFlagKey role) && s.contains (userKey role)

/-- The roles granted to `user`: what follows the prefix in the keys of its memberships. -/
def rolesOf (s : Records) (user : Text) : List Text :=
  ((scanKeys s (roleMemberPrefix user)).map
    (·.drop (roleMemberPrefix user).length)).filter (isRole s)

def scanColumnGrants (s : Records) (p : Text) : List Text := (scanKeys s p).map (·.drop p.length)

/-- The columns of `table` that `user` may read, if it is restricted to some. -/
def columnGrants (s : Records) (user table : Text) : Option (List Text) :=
  if user.isEmpty then none
  else
    let columns := scanColumnGrants s (colGrantPrefix user table) ++
      (rolesOf s user).flatMap fun role => scanColumnGrants s (colGrantPrefix role table)
    if columns.isEmpty then none
    else some ((columns.insertionSort (· ≤ ·)).destutter (· ≠ ·))

def ownPrivilege (codec : UserCodec) (s : Records) (name : Text) : Privilege :=
  (((s.get (userKey name)).bind codec.decodeUser).map (·.privilege)).getD .read

def ownGlobalPrivset (codec : UserCodec) (s : Records) (name : Text) : UInt32 :=
  match s.get (ugrantKey name) with
  | some b => decodePrivset b
  | none => privsetFromTier (ownPrivilege codec s name)

/-- The flags of a table grant, also of one that was stored as a level. -/
def tableFlags : Option Record → UInt32
  | some b =>
    if b.length = 4 then decodePrivset b else privsetFromTier ((decodePrivilege b).getD .read)
  | none => 0

def ownTablePrivset (s : Records) (name table : Text) : UInt32 :=
  tableFlags (s.get (tableGrantKey name table))

def effectiveGlobalPrivset (codec : UserCodec) (s : Records) (user : Text) : UInt32 :=
  (rolesOf s user).foldl (fun bits role => bits ||| ownGlobalPrivset codec s role)
    (ownGlobalPrivset codec s user)

def effectiveTablePrivset (codec : UserCodec) (s : Records) (user table : Text) : UInt32 :=
  (rolesOf s user).foldl (fun bits role => bits ||| ownTablePrivset s role table)
    (effectiveGlobalPrivset codec s user ||| ownTablePrivset s user table)

/-! ## The keys of an account -/

/-- `str::split_once("::")`: what stands before and after the first separator. -/
def splitOnce : Text → Option (Text × Text)
  | [] => none
  | c :: r =>
    if c = ':' ∧ r.head? = some ':' then some ([], r.tail)
    else (splitOnce r).map fun p => (c :: p.1, p.2)

/-- A membership names `name` as its role, as `account_keys` reads it. -/
def namesRole (name key : Text) : Bool :=
  (splitOnce (key.drop Family.rolemember.text.length)).any fun p => p.2 == name

/-- Everything stored under the name of an account, which is deleted with it. -/
def accountKeys (s : Records) (name : Text) : List Text :=
  [userKey name, roleFlagKey name, ugrantKey name] ++
    [tableGrantPrefix name, accountColPrefix name, roleMemberPrefix name].flatMap (scanKeys s) ++
    (scanKeys s Family.rolemember.text).filter (namesRole name)

def staleAccountKeys (s : Records) (name : Text) (puts : List (Text × Record)) : List Text :=
  (accountKeys s name).filter fun k => !puts.any fun p => p.1 == k

/-- `Session::commit_write` outside a transaction: deletes, then puts. -/
def commitWrite (s : Records) (puts : List (Text × Record)) (deletes : List Text) : Records :=
  (s.eraseMany deletes).insertMany puts

end ElyraSql.Accounts
