import ElyraSql.Accounts.Grants

/-!
# Account statements

`execute` of `elyra-engine/src/users.rs`: `CREATE` and `DROP` of users and roles, `ALTER USER` and
`SET PASSWORD`, `GRANT` and `REVOKE` of roles and of privileges. A statement that names several
accounts is one write, except that `GRANT` and `REVOKE` of privileges write after each grantee, so
an unknown grantee leaves those before it changed.
-/

namespace ElyraSql.Accounts

open Engine

/-! ## Tokens -/

inductive Tok
  | word (s : Text)
  | str (s : Text)
  | sym (c : Char)
  deriving DecidableEq, Repr

/-- A word or a quoted text. -/
def Tok.name? : Tok → Option Text
  | .word s => some s
  | .str s => some s
  | .sym _ => none

def Tok.text (t : Tok) : Text := t.name?.getD []

def Tok.isWord (kw : Text) : Tok → Bool
  | .word s => lower s == kw
  | _ => false

/-- The token at the front is the word `kw`. -/
def startsWith (kw : Text) (toks : List Tok) : Bool := toks.head?.any (Tok.isWord kw)

/-! ## Errors and settings -/

inductive AccountError
  | parse (message : String)
  | query (message : String)
  | storage (message : String)
  | accountOperation (operation : String) (name : Text)
  deriving DecidableEq, Repr

/-- The password policy of the environment, and what is taken from outside the modelled code. -/
structure Config extends UserCodec where
  policyOff : Bool
  minLen : Nat
  requireMixed : Bool
  /-- `char::is_alphabetic`. -/
  isAlphabetic : Char → Bool
  /-- `SHA1(SHA1(password))`. -/
  passwordDigest : Text → Digest
  /-- `predicate::identifier_eq`. -/
  identifierEq : Text → Text → Bool

def checkPasswordPolicy (cfg : Config) (pw : Text) : Except AccountError Unit :=
  if cfg.policyOff then .ok ()
  else if pw.length < cfg.minLen then
    .error (.query ("password does not meet policy: minimum length is " ++ toString cfg.minLen ++
      " (set ELYRASQL_PASSWORD_POLICY=off to disable)"))
  else if cfg.requireMixed ∧ ¬ (pw.any cfg.isAlphabetic ∧ pw.any Char.isDigit) then
    .error (.query ("password does not meet policy: must contain both letters and digits " ++
      "(set ELYRASQL_PASSWORD_REQUIRE_MIXED=false to relax)"))
  else .ok ()

/-! ## Parsing -/

inductive Stmt
  | createRole (ifNotExists : Bool) (names : List Text)
  | dropAccounts (operation : String) (ifExists : Bool) (names : List Text)
  | roleMembership (grant : Bool) (roles users : List Text)
  | createUser (ifNotExists : Bool) (name password : Text)
  | setPassword (name password : Text)
  | grantRevoke (grant : Bool) (actions cols : List Text) (scope : Option Text)
      (grantees : List Text)

/-- The host of a user specification is read over. -/
def skipHost : List Tok → List Tok
  | .sym '@' :: rest =>
    match rest with
    | .sym c :: r => .sym c :: r
    | _ :: r => r
    | [] => []
  | toks => toks

/-- `parse_userspec`: the name at the front, and what follows it. -/
def parseUserspec : List Tok → Option (Text × List Tok)
  | [] => none
  | t :: rest => t.name?.map fun s => (s, skipHost rest)

/-- The names of a list with commas. -/
def userspecs : Nat → List Tok → List Text
  | 0, _ => []
  | fuel + 1, toks =>
    match parseUserspec toks with
    | none => []
    | some (name, rest) =>
      name :: if rest.head? = some (.sym ',') then userspecs fuel rest.tail else []

def namesIn (toks : List Tok) : List Text := userspecs toks.length toks

/-- `IF NOT EXISTS` or `IF EXISTS`, of `n` tokens. -/
def ifClause (n : Nat) (toks : List Tok) : Bool × List Tok :=
  if startsWith ['i', 'f'] toks then (true, toks.drop n) else (false, toks)

/-- What follows the first token that satisfies `p`, if there is one. -/
def after (p : Tok → Bool) : List Tok → Option (List Tok)
  | [] => none
  | t :: rest => if p t then some rest else after p rest

/-- The text after the word `BY`. -/
def afterBy (toks : List Tok) : Text :=
  (((after (Tok.isWord ['b', 'y']) toks).bind List.head?).map Tok.text).getD []

/-- The action words before `ON`, and the names in the parentheses among them. -/
def actionsAndCols : Bool → List Tok → List Text × List Text × List Tok
  | _, [] => ([], [], [])
  | false, t :: rest =>
    if t.isWord ['o', 'n'] then ([], [], t :: rest)
    else
      match t with
      | .word s =>
        let (actions, cols, left) := actionsAndCols false rest
        (s :: actions, cols, left)
      | .sym c => actionsAndCols (c == '(') rest
      | .str _ => actionsAndCols false rest
  | true, t :: rest =>
    if t = .sym ')' then actionsAndCols false rest
    else
      let (actions, cols, left) := actionsAndCols true rest
      (actions, t.name?.toList ++ cols, left)

/-- `TO` or `FROM`. -/
def separator (grant : Bool) : Text := if grant then ['t', 'o'] else ['f', 'r', 'o', 'm']

def verb (grant : Bool) : String := if grant then "GRANT" else "REVOKE"

def separatorWord (grant : Bool) : String := if grant then "TO" else "FROM"

def parseMembership (grant : Bool) (toks : List Tok) : Except AccountError Stmt :=
  match after (Tok.isWord (separator grant)) toks with
  | none => .error (.parse (verb grant ++ " <role> " ++ separatorWord grant ++ " <user>"))
  | some rest =>
    .ok (.roleMembership grant
      ((toks.takeWhile fun t => !t.isWord (separator grant)).filterMap Tok.name?) (namesIn rest))

def parseGrantRevoke (grant : Bool) (toks : List Tok) (scope : Except AccountError (Option Text)) :
    Except AccountError Stmt :=
  let (actions, cols, left) := actionsAndCols false toks
  scope.bind fun table =>
    match after (Tok.isWord (separator grant)) left with
    | none => .error (.parse (verb grant ++ " requires " ++ separatorWord grant ++ " <user>"))
    | some rest => .ok (.grantRevoke grant actions cols table (namesIn rest))

def parseSetPassword : List Tok → Except AccountError Stmt
  | toks =>
    if startsWith ['f', 'o', 'r'] toks then
      match parseUserspec toks.tail with
      | none => .error (.parse "SET PASSWORD FOR: expected a user name")
      | some (name, rest) =>
        -- the first quoted text after the equals sign
        let texts := ((after (· == .sym '=') rest).getD []).filter fun t => t matches .str _
        .ok (.setPassword name ((texts.head?.map Tok.text).getD []))
    else .error (.query "SET PASSWORD without FOR is not supported (specify FOR '<user>')")

/-- The branches of `execute`, in their order, after the check of the privilege. -/
def parse (toks : List Tok) (scope : Except AccountError (Option Text)) :
    Except AccountError Stmt :=
  let first := fun kw => startsWith kw toks
  let second := fun kw => startsWith kw toks.tail
  let hasOn := toks.any (Tok.isWord ['o', 'n'])
  let create := first ['c', 'r', 'e', 'a', 't', 'e']
  let drop := first ['d', 'r', 'o', 'p']
  let role := second ['r', 'o', 'l', 'e']
  let grant := first ['g', 'r', 'a', 'n', 't']
  let revoke := first ['r', 'e', 'v', 'o', 'k', 'e']
  if create ∧ role then
    let (ifNotExists, rest) := ifClause 3 (toks.drop 2)
    if (namesIn rest).isEmpty then .error (.parse "CREATE ROLE: expected a role name")
    else .ok (.createRole ifNotExists (namesIn rest))
  else if drop ∧ role then
    let (ifExists, rest) := ifClause 2 (toks.drop 2)
    if (namesIn rest).isEmpty then .error (.parse "DROP ROLE: expected a role name")
    else .ok (.dropAccounts "DROP ROLE" ifExists (namesIn rest))
  else if grant ∧ ¬ hasOn then parseMembership true toks.tail
  else if revoke ∧ ¬ hasOn then parseMembership false toks.tail
  else if create then
    let (ifNotExists, rest) := ifClause 3 (toks.drop 2)
    match parseUserspec rest with
    | none => .error (.parse "CREATE USER: expected a user name")
    | some (name, rest) =>
      let identified := startsWith ['i', 'd', 'e', 'n', 't', 'i', 'f', 'i', 'e', 'd'] rest
      .ok (.createUser ifNotExists name (if identified then afterBy rest else []))
  else if drop then
    let (ifExists, rest) := ifClause 2 (toks.drop 2)
    if (namesIn rest).isEmpty then .error (.parse "DROP USER: expected a user name")
    else .ok (.dropAccounts "DROP USER" ifExists (namesIn rest))
  else if first ['a', 'l', 't', 'e', 'r'] then
    match parseUserspec (toks.drop 2) with
    | none => .error (.parse "ALTER USER: expected a user name")
    | some (name, rest) => .ok (.setPassword name (afterBy rest))
  else if first ['s', 'e', 't'] then parseSetPassword (toks.drop 2)
  else if grant then parseGrantRevoke true toks.tail scope
  else if revoke then parseGrantRevoke false toks.tail scope
  else .error (.parse "unsupported user-management statement")

/-! ## Execution -/

abbrev Batch := List (Text × Record) × List Text

def Batch.append (a b : Batch) : Batch := (a.1 ++ b.1, a.2 ++ b.2)

/-- A role is an account with an empty password and a mark; a new one is granted nothing. -/
def rolePuts (cfg : Config) (name : Text) : List (Text × Record) :=
  [(userKey name, cfg.encodeUser ⟨cfg.passwordDigest [], .read⟩), (roleFlagKey name, [1]),
   (ugrantKey name, encodePrivset 0)]

def createRoles (cfg : Config) (s : Records) (ifNotExists : Bool) :
    List Text → Except AccountError Batch
  | [] => .ok ([], [])
  | name :: names =>
    if s.contains (userKey name) then
      if ifNotExists then createRoles cfg s ifNotExists names
      else .error (.accountOperation "CREATE ROLE" name)
    else
      (createRoles cfg s ifNotExists names).map fun rest =>
        Batch.append (rolePuts cfg name, staleAccountKeys s name (rolePuts cfg name)) rest

def dropAccounts (s : Records) (operation : String) (ifExists : Bool) :
    List Text → Except AccountError Batch
  | [] => .ok ([], [])
  | name :: names =>
    if s.contains (userKey name) then
      (dropAccounts s operation ifExists names).map fun rest =>
        Batch.append ([], accountKeys s name) rest
    else if ifExists then dropAccounts s operation ifExists names
    else .error (.accountOperation operation name)

def userPuts (cfg : Config) (name password : Text) : List (Text × Record) :=
  [(userKey name, cfg.encodeUser ⟨cfg.passwordDigest password, .read⟩),
    (ugrantKey name, encodePrivset 0)]

def createUser (cfg : Config) (s : Records) (ifNotExists : Bool) (name password : Text) :
    Except AccountError Batch :=
  if s.contains (userKey name) then
    if ifNotExists then .ok ([], []) else .error (.accountOperation "CREATE USER" name)
  else
    (checkPasswordPolicy cfg password).map fun _ =>
      (userPuts cfg name password, staleAccountKeys s name (userPuts cfg name password))

def corruptRecord : AccountError := .storage "corrupt user record"

def setPassword (cfg : Config) (s : Records) (name password : Text) : Except AccountError Batch :=
  match s.get (userKey name) with
  | none => .error (.query ("user '" ++ String.ofList name ++ "' does not exist"))
  | some b =>
    match cfg.decodeUser b with
    | none => .error corruptRecord
    | some rec =>
      (checkPasswordPolicy cfg password).map fun _ =>
        ([(userKey name, cfg.encodeUser { rec with digest := cfg.passwordDigest password })], [])

def roleMembership (s : Records) (grant : Bool) (roles users : List Text) :
    Except AccountError Batch :=
  match roles.find? fun r => !s.contains (roleFlagKey r) with
  | some r => .error (.query ("role '" ++ String.ofList r ++ "' does not exist"))
  | none =>
    match users.find? fun u => !s.contains (userKey u) with
    | some u => .error (.query ("user '" ++ String.ofList u ++ "' does not exist"))
    | none =>
      if users.isEmpty ∨ roles.isEmpty then
        .error (.parse "role membership: expected roles and users")
      else
        let keys := users.flatMap fun u => roles.map (roleMemberKey u)
        .ok (if grant then (keys.map fun k => (k, [1]), []) else ([], keys))

/-- The flags after a `GRANT` or a `REVOKE`. -/
def newFlags (grant : Bool) (current delta : UInt32) : UInt32 :=
  if grant then current ||| delta else current &&& ~~~delta

/-- The column grants of one grantee. `REVOKE` looks for the columns among all that the grantee may
read, those of its roles included. -/
def grantColumns (cfg : Config) (s : Records) (grant : Bool) (cols : List Text)
    (table name : Text) :
    Batch :=
  if grant then (cols.map fun c => (colGrantKey name table c, encodePrivilege .read), [])
  else
    let stored := (columnGrants s name table).getD []
    ([], cols.flatMap fun c =>
      (stored.filter fun d => cfg.identifierEq d c).map fun d => colGrantKey name table d)

def grantTable (s : Records) (grant : Bool) (actions : List Text) (table name : Text) : Batch :=
  let key := tableGrantKey name table
  let flags := newFlags grant (tableFlags (s.get key)) (privsetFromActions actions)
  if grant = false ∧ flags = 0 then ([], [key]) else ([(key, encodePrivset flags)], [])

def grantGlobal (cfg : Config) (s : Records) (grant : Bool) (actions : List Text) (name : Text)
    (rec : UserRecord) : Batch :=
  let current := match s.get (ugrantKey name) with
    | some b => decodePrivset b
    | none => privsetFromTier rec.privilege
  let flags := newFlags grant current (privsetFromActions actions)
  ([(ugrantKey name, encodePrivset flags),
    (userKey name, cfg.encodeUser { rec with privilege := tierFromPrivset flags })], [])

def grantOne (cfg : Config) (grant : Bool) (actions cols : List Text) (scope : Option Text)
    (s : Records) (name : Text) : Except AccountError Batch :=
  match s.get (userKey name) with
  | none =>
    .error (.query ("user '" ++ String.ofList name ++ "' does not exist (CREATE USER first)"))
  | some b =>
    match scope with
    | some table =>
      .ok (if cols.isEmpty then grantTable s grant actions table name
        else grantColumns cfg s grant cols table name)
    | none =>
      match cfg.decodeUser b with
      | none => .error corruptRecord
      | some rec => .ok (grantGlobal cfg s grant actions name rec)

/-- Each grantee is written before the next one is looked at. -/
def grantAll (cfg : Config) (grant : Bool) (actions cols : List Text) (scope : Option Text) :
    Records → List Text → Records × Except AccountError Unit
  | s, [] => (s, .ok ())
  | s, name :: names =>
    match grantOne cfg grant actions cols scope s name with
    | .error e => (s, .error e)
    | .ok b => grantAll cfg grant actions cols scope (commitWrite s b.1 b.2) names

def commitBatch (s : Records) : Except AccountError Batch → Records × Except AccountError Unit
  | .error e => (s, .error e)
  | .ok b => (commitWrite s b.1 b.2, .ok ())

def Stmt.exec (cfg : Config) (s : Records) : Stmt → Records × Except AccountError Unit
  | .createRole ifNotExists names => commitBatch s (createRoles cfg s ifNotExists names)
  | .dropAccounts operation ifExists names =>
    commitBatch s (Accounts.dropAccounts s operation ifExists names)
  | .roleMembership grant roles users => commitBatch s (Accounts.roleMembership s grant roles users)
  | .createUser ifNotExists name password =>
    commitBatch s (Accounts.createUser cfg s ifNotExists name password)
  | .setPassword name password => commitBatch s (Accounts.setPassword cfg s name password)
  | .grantRevoke grant actions cols scope grantees =>
    if grantees.isEmpty then (s, .error (.parse "no grantee specified"))
    else grantAll cfg grant actions cols scope s grantees

/-- What a session sends: the tokens, the scope read off by the SQL parser, and its own privilege.
-/
structure Input where
  toks : List Tok
  scope : Except AccountError (Option Text)
  privilege : Privilege

/-- `execute`. `SHOW GRANTS` changes nothing; its rows are left out. -/
def execute (cfg : Config) (s : Records) (i : Input) : Records × Except AccountError Unit :=
  if startsWith ['s', 'h', 'o', 'w'] i.toks then (s, .ok ())
  else if i.privilege ≠ .admin then
    (s, .error (.query "access denied: user management requires ADMIN privilege"))
  else
    match parse i.toks i.scope with
    | .error e => (s, .error e)
    | .ok st => st.exec cfg s

/-! ## The names of a statement -/

def Stmt.names : Stmt → List Text
  | .createRole _ names => names
  | .dropAccounts _ _ names => names
  | .roleMembership _ roles users => roles ++ users
  | .createUser _ name _ => [name]
  | .setPassword name _ => [name]
  | .grantRevoke _ _ _ _ grantees => grantees

/-- The accounts that a statement makes grants to, revokes grants from, or drops. -/
def Stmt.targets : Stmt → Option (List Text)
  | .dropAccounts _ _ names => some names
  | .roleMembership _ _ users => some users
  | .grantRevoke _ _ _ _ grantees => some grantees
  | _ => none

end ElyraSql.Accounts
