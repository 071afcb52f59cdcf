import WormDB.Auth
import WormDB.DecimalText
import WormDB.ProofBundleComplete

/-! # Minted tokens of `procedures/auth_mint_scoped.zig`

`auth_mint_scoped` signs a token for one namespace of the agent memory: its keys stand
under four prefixes, and a name has no colon, so that the keys of two namespaces are
apart.

Whoever mints has to hold a universal grant or a capability to mint for the namespace.
`canMint` asks for the first with a check on the empty target, which a capability for
exactly the empty target passes too (`mint_exactEmpty`). -/
namespace WormDB
open List ByteCodec DecimalText

namespace Auth

/-! ## Namespaces -/

inductive NamespaceMode where
  | read | write | readwrite
  deriving DecidableEq

def namespaceModeFromStr (s : Bytes) : Option NamespaceMode :=
  if s = ascii "read" then some .read
  else if s = ascii "write" then some .write
  else if s = ascii "readwrite" then some .readwrite
  else none

def memPrefix (ns : Bytes) : Bytes := ascii "mem:" ++ ns ++ ascii ":"
def vecPrefix (ns : Bytes) : Bytes := ascii "vec:mem:" ++ ns ++ ascii ":"
def bqPrefix (ns : Bytes) : Bytes := ascii "bq:vec:mem:" ++ ns ++ ascii ":"
def configPrefix (ns : Bytes) : Bytes := ascii "__meta:mem:" ++ ns ++ ascii ":"

/-- The prefixes of a namespace's keys. -/
def namespacePrefixes (ns : Bytes) : List Bytes :=
  [memPrefix ns, vecPrefix ns, bqPrefix ns, configPrefix ns]

/-- `appendCap`. -/
def prefixCap (op : Operation) (pattern : Bytes) : Capability := ⟨op, .prefixed, pattern⟩

def readCaps (ns : Bytes) : List Capability :=
  [prefixCap .get (memPrefix ns), prefixCap .get (vecPrefix ns), prefixCap .get (bqPrefix ns),
    prefixCap .get (configPrefix ns), prefixCap .exec (ascii "mem_"),
    prefixCap .subscribe (memPrefix ns)]

def writeCaps (ns : Bytes) : List Capability :=
  [prefixCap .set (memPrefix ns), prefixCap .set (vecPrefix ns), prefixCap .set (bqPrefix ns),
    prefixCap .set (configPrefix ns), prefixCap .delete (memPrefix ns),
    prefixCap .delete (vecPrefix ns), prefixCap .delete (bqPrefix ns),
    prefixCap .delete (configPrefix ns), prefixCap .publish (memPrefix ns),
    prefixCap .exec (ascii "mem_")]

def namespaceCapabilities (ns : Bytes) (mode : NamespaceMode) : List Capability :=
  (if mode = .read ∨ mode = .readwrite then readCaps ns else []) ++
    (if mode = .write ∨ mode = .readwrite then writeCaps ns else [])

/-! ## Minting -/

structure AuthMintConfig where
  secretKey : Bytes
  defaultTtlS : UInt64
  maxTtlS : UInt64

def maxNsLen : Nat := 64

def isSafeToken (c : UInt8) : Bool :=
  (97 ≤ c && c ≤ 122) || (65 ≤ c && c ≤ 90) || (48 ≤ c && c ≤ 57) || c == 45 || c == 95 ||
    c == 46 || c == 47

def validateNs (ns : Bytes) : Bool :=
  decide (ns.length ≠ 0 ∧ ns.length ≤ maxNsLen) && ns.all isSafeToken

def mintTarget (ns : Bytes) : Bytes := ascii "auth:mint:" ++ ns

def canMint (auth : AuthContext) (ns : Bytes) : Bool :=
  if auth.permits .all [] then true
  else if !auth.permits .exec (ascii "auth_mint_scoped") then false
  else auth.permits .exec (mintTarget ns)

/-- `parseInt(u64)`: the sign may be a minus only before a zero. -/
def parseU64 (buf : Bytes) : Option UInt64 :=
  (parseInt 65 buf).bind (fun n => if 0 ≤ n then some n.toNat.toUInt64 else none)

/-- The fields of the reply; the token is sent in base64. -/
structure MintReply where
  token : Bytes
  subject : Bytes
  ns : Bytes
  mode : NamespaceMode
  exp : UInt64
  jti : UInt32
  deriving DecidableEq

inductive MintResult where
  | minted (reply : MintReply)
  | err (message : String)
  | fault (e : Error)
  deriving DecidableEq

/-- What a call takes from outside: the clock and a random number. -/
structure MintEnv where
  nowMs : UInt64
  jti : UInt32

def ttlOf (mint : AuthMintConfig) : Option Bytes → Except String UInt64
  | none => .ok mint.defaultTtlS
  | some raw =>
      match parseU64 raw with
      | none => .error "auth_mint_scoped: ttl_s must be a positive integer"
      | some parsed =>
          if parsed = 0 then .error "auth_mint_scoped: ttl_s must be positive" else .ok parsed

def modeOf : Option Bytes → Except String NamespaceMode
  | none => .ok .readwrite
  | some raw =>
      match namespaceModeFromStr raw with
      | none => .error "auth_mint_scoped: mode must be read|write|readwrite"
      | some mode => .ok mode

section
variable (ed25519 : Ed25519)

/-- The token is made; an end after the last second traps. -/
def mintToken (mint : AuthMintConfig) (env : MintEnv) (ns subject : Bytes) (ttlS : UInt64)
    (mode : NamespaceMode) : MintResult :=
  let nowS := env.nowMs / 1000
  if 2 ^ 64 ≤ nowS.toNat + ttlS.toNat then .fault .trap
  else
    match encode ed25519 subject nowS (nowS + ttlS) env.jti (namespaceCapabilities ns mode)
        mint.secretKey with
    | .error e => .fault e
    | .ok token => .minted ⟨token, subject, ns, mode, nowS + ttlS, env.jti⟩

def execute (auth : AuthContext) (mint : Option AuthMintConfig) (env : MintEnv) (args : List Bytes) :
    MintResult :=
  match args[0]? with
  | none => .err "auth_mint_scoped requires: <namespace> [ttl_s] [subject] [mode]"
  | some ns =>
  if !validateNs ns then .err "auth_mint_scoped: invalid namespace"
  else
  match mint with
  | none => .err "auth_mint_scoped: auth mint not configured"
  | some mint =>
  if !canMint auth ns then .err "permission denied"
  else
  match ttlOf mint args[1]? with
  | .error message => .err message
  | .ok ttlS =>
  if 0 < mint.maxTtlS ∧ mint.maxTtlS < ttlS then .err "auth_mint_scoped: ttl_s exceeds auth token_max_age_s"
  else
  match modeOf args[3]? with
  | .error message => .err message
  | .ok mode => mintToken ed25519 mint env ns ((args[2]?).getD (ascii "mem:" ++ ns)) ttlS mode

end

/-! ## Where a namespace's keys are -/

/-- The operations on keys. -/
def keyOperations : List Operation := [.get, .set, .delete, .subscribe]

variable {op op' : Operation}

theorem prefixCap_permits {pattern target : Bytes}
    (h : (prefixCap op' pattern).permits op target = true) (hall : op' ≠ .all) :
    op' = op ∧ pattern <+: target := by
  rw [Capability.permits] at h
  split at h
  · cases h
  · rename_i hop
    refine ⟨?_, isPrefixOf_iff_prefix.mp h⟩
    by_contra hne
    exact hop ⟨hall, hne⟩

variable {mode : NamespaceMode} {cap : Capability}

/-- A capability of a namespace is for procedures, or for keys under its prefixes. -/
theorem namespaceCapabilities_cases {ns : Bytes} (h : cap ∈ namespaceCapabilities ns mode) :
    cap = prefixCap .exec (ascii "mem_") ∨
      ∃ op ≠ .all, ∃ pre ∈ namespacePrefixes ns, cap = prefixCap op pre := by
  have hcaps : cap ∈ readCaps ns ++ writeCaps ns := by
    rw [namespaceCapabilities] at h
    rcases mem_append.mp h with h | h
    · split at h
      · exact mem_append_left _ h
      · cases h
    · split at h
      · exact mem_append_right _ h
      · cases h
  simp only [readCaps, writeCaps, mem_append, mem_cons, not_mem_nil, or_false] at hcaps
  simp only [namespacePrefixes, mem_cons, not_mem_nil, or_false]
  rcases hcaps with (rfl | rfl | rfl | rfl | rfl | rfl) | rfl | rfl | rfl | rfl | rfl | rfl | rfl | rfl |
    rfl | rfl
  all_goals
    first
    | exact .inl rfl
    | exact .inr ⟨_, by decide, _, by simp, rfl⟩

variable {state : TokenState} {key : Bytes}

/-- **What a namespace's token permits on keys is under its prefixes.** -/
theorem namespaceCapabilities_confined {ns : Bytes}
    (hcaps : state.capabilities = namespaceCapabilities ns mode)
    (hop : op ∈ keyOperations) (h : state.permits op key = true) :
    ∃ pre ∈ namespacePrefixes ns, pre <+: key := by
  obtain ⟨cap, hcap, hpermits⟩ := any_eq_true.mp h
  rw [hcaps] at hcap
  rcases namespaceCapabilities_cases hcap with rfl | ⟨op', hall, pre, hpre, rfl⟩
  · obtain ⟨rfl, -⟩ := prefixCap_permits hpermits (by decide)
    exact absurd hop (by decide)
  · exact ⟨pre, hpre, (prefixCap_permits hpermits hall).2⟩

def colon : UInt8 := 58

theorem validateNs_colon {ns : Bytes} (h : validateNs ns = true) : colon ∉ ns := by
  intro hmem
  rw [validateNs, Bool.and_eq_true, all_eq_true] at h
  have hsafe := h.2 colon hmem
  revert hsafe
  decide

variable {ns' : Bytes}

/-- A name ends at its first colon. -/
theorem name_eq {ns rest rest' : Bytes} (h : colon ∉ ns) (h' : colon ∉ ns')
    (heq : ns ++ colon :: rest = ns' ++ colon :: rest') : ns = ns' := by
  induction ns generalizing ns' with
  | nil =>
    cases ns' with
    | nil => rfl
    | cons c ns' =>
      obtain ⟨hc, -⟩ := cons.inj heq
      exact absurd (hc ▸ mem_cons_self ..) h'
  | cons c ns ih =>
    cases ns' with
    | nil =>
      obtain ⟨hc, -⟩ := cons.inj heq
      exact absurd (hc ▸ mem_cons_self ..) h
    | cons c' ns' =>
      obtain ⟨rfl, htail⟩ := cons.inj heq
      rw [ih (fun hm => h (mem_cons_of_mem _ hm)) (fun hm => h' (mem_cons_of_mem _ hm)) htail]

/-- What a prefix of a namespace is made of. -/
def families : List Bytes := [ascii "mem:", ascii "vec:mem:", ascii "bq:vec:mem:", ascii "__meta:mem:"]

variable {pre : Bytes}

theorem namespacePrefixes_family {ns : Bytes} (h : pre ∈ namespacePrefixes ns) :
    ∃ family ∈ families, pre = family ++ ns ++ [colon] := by
  simp only [namespacePrefixes, mem_cons, not_mem_nil, or_false] at h
  rcases h with rfl | rfl | rfl | rfl
  · exact ⟨ascii "mem:", by decide, rfl⟩
  · exact ⟨ascii "vec:mem:", by decide, rfl⟩
  · exact ⟨ascii "bq:vec:mem:", by decide, rfl⟩
  · exact ⟨ascii "__meta:mem:", by decide, rfl⟩

/-- No two families begin alike. -/
theorem families_apart {a b xs ys : Bytes} (ha : a ∈ families) (hb : b ∈ families)
    (heq : a ++ xs = b ++ ys) : a = b := by
  have hheads : ∀ a ∈ families, ∀ b ∈ families, a.head? = b.head? → a = b := by decide
  have hne : ∀ a ∈ families, ∀ zs : Bytes, (a ++ zs).head? = a.head? := by
    intro a ha zs
    apply head?_append_of_ne_nil
    rintro rfl
    revert ha
    decide
  apply hheads a ha b hb
  rw [← hne a ha xs, heq, hne b hb ys]

/-- **Two namespaces have no key in common.** -/
theorem namespaces_apart {ns pre' : Bytes} (hns : validateNs ns = true)
    (hns' : validateNs ns' = true) (hpre : pre ∈ namespacePrefixes ns)
    (hpre' : pre' ∈ namespacePrefixes ns') (hkey : pre <+: key) (hkey' : pre' <+: key) :
    ns = ns' := by
  obtain ⟨family, hfamily, rfl⟩ := namespacePrefixes_family hpre
  obtain ⟨family', hfamily', rfl⟩ := namespacePrefixes_family hpre'
  obtain ⟨rest, hrest⟩ := hkey
  obtain ⟨rest', hrest'⟩ := hkey'
  have heq : family ++ (ns ++ colon :: rest) = family' ++ (ns' ++ colon :: rest') := by
    have htrans := hrest.trans hrest'.symm
    simpa only [append_assoc, singleton_append] using htrans
  obtain rfl := families_apart hfamily hfamily' heq
  exact name_eq (validateNs_colon hns) (validateNs_colon hns') (append_cancel_left heq)

/-! ## Who may mint -/

namespace AuthContext

/-- The caller may do everything: nothing is checked, or a capability names the whole
database. -/
def Universal : AuthContext → Prop
  | trusted | disabled => True
  | enforce none => False
  | enforce (some state) => ∃ cap ∈ state.capabilities, cap.universal = true

/-- The caller may run the procedure, and may mint for the namespace. -/
def MintCapability (auth : AuthContext) (ns : Bytes) : Prop :=
  auth.permits .exec (ascii "auth_mint_scoped") = true ∧ auth.permits .exec (mintTarget ns) = true

/-- A capability of the caller is for all operations on the empty target alone. -/
def ExactEmpty : AuthContext → Prop
  | enforce (some state) => ⟨.all, .exact, []⟩ ∈ state.capabilities
  | _ => False

end AuthContext

theorem permits_all_empty : cap.permits .all [] = true ↔
    cap.universal = true ∨ cap = ⟨.all, .exact, []⟩ := by
  obtain ⟨op, matchType, pattern⟩ := cap
  simp only [Capability.permits, Capability.universal, Capability.mk.injEq, and_self]
  by_cases hop : op = .all
  · cases matchType with
    | exact | prefixed | wildcard => simp [hop]
  · simp [hop]

/-- The check on the empty target finds a universal grant, or one for the empty target. -/
theorem permits_empty_iff {auth : AuthContext} :
    auth.permits .all [] = true ↔ auth.Universal ∨ auth.ExactEmpty := by
  cases auth with
  | trusted | disabled => simp [AuthContext.permits, AuthContext.Universal]
  | enforce token =>
    cases token with
    | none => simp [AuthContext.permits, AuthContext.Universal, AuthContext.ExactEmpty]
    | some state =>
      simp only [AuthContext.permits, TokenState.permits, any_eq_true, permits_all_empty,
        AuthContext.Universal, AuthContext.ExactEmpty]
      constructor
      · rintro ⟨cap, hcap, huniversal | rfl⟩
        · exact .inl ⟨cap, hcap, huniversal⟩
        · exact .inr hcap
      · rintro (⟨cap, hcap, huniversal⟩ | hcap)
        · exact ⟨cap, hcap, .inl huniversal⟩
        · exact ⟨_, hcap, .inr rfl⟩

theorem canMint_iff {auth : AuthContext} {ns : Bytes} :
    canMint auth ns = true ↔ auth.Universal ∨ auth.ExactEmpty ∨ auth.MintCapability ns := by
  rw [← or_assoc, ← permits_empty_iff, canMint, AuthContext.MintCapability]
  by_cases hempty : auth.permits .all [] = true
  · simp [hempty]
  · by_cases hexec : auth.permits .exec (ascii "auth_mint_scoped") = true
    · simp [hempty, hexec]
    · simp [hempty, hexec]

/-! ## What is minted -/

variable {ed25519 : Ed25519} {auth : AuthContext} {mint : Option AuthMintConfig} {env : MintEnv}
  {args : List Bytes} {ns : Bytes} {reply : MintReply}

theorem mintToken_minted {config : AuthMintConfig} {subject : Bytes} {ttlS : UInt64}
    (h : mintToken ed25519 config env ns subject ttlS mode = .minted reply) :
    ∃ iat exp, encode ed25519 subject iat exp env.jti (namespaceCapabilities ns mode)
      config.secretKey = .ok reply.token := by
  simp only [mintToken] at h
  split at h
  · cases h
  split at h
  · cases h
  · rename_i token htoken
    obtain rfl := MintResult.minted.inj h
    exact ⟨_, _, htoken⟩

/-- A token that was minted has the capabilities of its namespace, whose name is valid,
and its caller passed the check. -/
theorem execute_minted (hns : args[0]? = some ns)
    (h : execute ed25519 auth mint env args = .minted reply) :
    validateNs ns = true ∧ canMint auth ns = true ∧ ∃ subject iat exp jti mode secretKey,
      encode ed25519 subject iat exp jti (namespaceCapabilities ns mode) secretKey =
        .ok reply.token := by
  rw [execute, hns] at h
  dsimp only at h
  split at h
  · cases h
  rename_i hvalid
  split at h
  · cases h
  rename_i config
  split at h
  · cases h
  rename_i hcan
  split at h
  · cases h
  split at h
  · cases h
  split at h
  · cases h
  rename_i mode hmode
  obtain ⟨iat, exp, hencode⟩ := mintToken_minted h
  exact ⟨by simpa using hvalid, by simpa using hcan, _, iat, exp, _, mode, _, hencode⟩

theorem minted_capabilities (hns : args[0]? = some ns)
    (h : execute ed25519 auth mint env args = .minted reply) {publicKeys : List Bytes}
    {now maxAgeS : UInt64}
    (hparse : verifyAndParse ed25519 reply.token publicKeys now maxAgeS = .ok state) :
    ∃ mode, state.capabilities = namespaceCapabilities ns mode := by
  obtain ⟨-, -, subject, iat, exp, jti, mode, secretKey, hencode⟩ := execute_minted hns h
  exact ⟨mode, by rw [verifyAndParse_encode hencode hparse]⟩

/-- The state of a connection that has shown a token which the caller had minted for the
namespace. -/
def HeldBy (ed25519 : Ed25519) (auth : AuthContext) (ns : Bytes) (state : TokenState) : Prop :=
  ∃ mint env args reply publicKeys now maxAgeS, args[0]? = some ns ∧
    execute ed25519 auth mint env args = .minted reply ∧
    verifyAndParse ed25519 reply.token publicKeys now maxAgeS = .ok state

/-- **What minting is to guarantee** for a caller and a namespace. -/
structure Confined (ed25519 : Ed25519) (auth : AuthContext) (ns : Bytes) : Prop where
  prefixes : ∀ state, HeldBy ed25519 auth ns state → ∀ op ∈ keyOperations, ∀ key,
    state.permits op key = true → ∃ pre ∈ namespacePrefixes ns, pre <+: key
  apart : ∀ state, HeldBy ed25519 auth ns state → ∀ auth' ns' state', ns' ≠ ns →
    HeldBy ed25519 auth' ns' state' → ∀ op ∈ keyOperations, ∀ op' ∈ keyOperations, ∀ key,
    ¬ (state.permits op key = true ∧ state'.permits op' key = true)
  authority : ∀ mint env args reply, args[0]? = some ns →
    execute ed25519 auth mint env args = .minted reply → auth.Universal ∨ auth.MintCapability ns

theorem HeldBy.confined (h : HeldBy ed25519 auth ns state) :
    validateNs ns = true ∧ ∀ op ∈ keyOperations, ∀ key, state.permits op key = true →
      ∃ pre ∈ namespacePrefixes ns, pre <+: key := by
  obtain ⟨mint, env, args, reply, publicKeys, now, maxAgeS, hns, hminted, hparse⟩ := h
  obtain ⟨mode, hcaps⟩ := minted_capabilities hns hminted hparse
  exact ⟨(execute_minted hns hminted).1,
    fun op hop key hpermits => namespaceCapabilities_confined hcaps hop hpermits⟩

theorem HeldBy.apart {auth' : AuthContext} {state' : TokenState}
    (h : HeldBy ed25519 auth ns state) (h' : HeldBy ed25519 auth' ns' state') (hne : ns' ≠ ns)
    (hop : op ∈ keyOperations) (hop' : op' ∈ keyOperations) :
    ¬ (state.permits op key = true ∧ state'.permits op' key = true) := by
  rintro ⟨hpermits, hpermits'⟩
  obtain ⟨hvalid, hconfined⟩ := h.confined
  obtain ⟨hvalid', hconfined'⟩ := h'.confined
  obtain ⟨pre, hpre, hkey⟩ := hconfined op hop key hpermits
  obtain ⟨pre', hpre', hkey'⟩ := hconfined' op' hop' key hpermits'
  exact hne (namespaces_apart hvalid' hvalid hpre' hpre hkey' hkey)

/-- A request with nothing but the name, under a key that signs, is answered when the
caller passes the check. -/
theorem execute_mints {secretKey : Bytes} (hsign : ∀ message, (ed25519.sign secretKey message).isSome)
    (hvalid : validateNs ns = true) (hcan : canMint auth ns = true) :
    ∃ reply, execute ed25519 auth (some ⟨secretKey, 1, 0⟩) ⟨0, 0⟩ [ns] = .minted reply := by
  have hlen : ns.length ≤ 64 := by
    rw [validateNs, Bool.and_eq_true, decide_eq_true_eq] at hvalid
    exact hvalid.1.2
  have hfits : TokenState.Fits ⟨ascii "mem:" ++ ns, 0, 1, 0, namespaceCapabilities ns .readwrite⟩ := by
    refine ⟨?_, (by decide : 16 < 2 ^ 8), fun cap hcap => ?_⟩
    · rw [length_append, (by decide : (ascii "mem:").length = 4)]
      omega
    · -- the longest family has eleven bytes
      rcases namespaceCapabilities_cases hcap with rfl | ⟨op, -, pre, hpre, rfl⟩
      · decide
      · obtain ⟨family, hfamily, rfl⟩ := namespacePrefixes_family hpre
        have hshort : ∀ family ∈ families, family.length ≤ 11 := by decide
        have hfamily := hshort family hfamily
        simp only [prefixCap, length_append, length_singleton]
        omega
  obtain ⟨sig, hsig⟩ := Option.isSome_iff_exists.mp
    (hsign (TokenState.payload ⟨ascii "mem:" ++ ns, 0, 1, 0, namespaceCapabilities ns .readwrite⟩))
  refine ⟨⟨TokenState.payload ⟨ascii "mem:" ++ ns, 0, 1, 0, namespaceCapabilities ns .readwrite⟩ ++
    sig.bytes, ascii "mem:" ++ ns, ns, .readwrite, 1, 0⟩, ?_⟩
  simp [execute, hvalid, hcan, ttlOf, modeOf, mintToken, encode, hfits, hsig]

/-- **When minting is confined.**  Under a scheme in which some key signs: every caller
that may mint for the namespace has the right to, exactly when it does not owe the right
to a capability for the empty target alone. -/
theorem mint_iff (hsign : ∃ secretKey, ∀ message, (ed25519.sign secretKey message).isSome)
    (auth : AuthContext) {ns : Bytes} (hns : validateNs ns = true) :
    Confined ed25519 auth ns ↔ (auth.ExactEmpty → auth.Universal ∨ auth.MintCapability ns) := by
  constructor
  · intro hconfined hempty
    obtain ⟨secretKey, hsign⟩ := hsign
    obtain ⟨reply, hminted⟩ := execute_mints hsign hns (canMint_iff.mpr (.inr (.inl hempty)))
    exact hconfined.authority _ _ [ns] reply rfl hminted
  · intro hcond
    refine ⟨fun state h => h.confined.2, fun state h auth' ns' state' hne h' op hop op' hop' key =>
      h.apart h' hne hop hop', ?_⟩
    intro mint env args reply harg hminted
    obtain ⟨-, hcan, -⟩ := execute_minted harg hminted
    rcases canMint_iff.mp hcan with huniversal | hempty | hmint
    · exact .inl huniversal
    · exact hcond hempty
    · exact .inr hmint

/-! ## One caller -/

open WormDB.Bundle (samplePublicKey sampleSecretKey)

/-- All operations on the empty target, and the procedure's name. -/
def sampleCaller : TokenState :=
  ⟨ascii "operator", 0, 1800000000, 1, [⟨.all, .exact, []⟩, ⟨.exec, .exact, ascii "auth_mint_scoped"⟩]⟩

def mintedState : TokenState :=
  ⟨ascii "mem:astrid", 1700000000, 1700000060, 7, namespaceCapabilities (ascii "astrid") .readwrite⟩

def mintedSignature : Signature :=
  ⟨[253, 52, 144, 191, 94, 25, 126, 249, 107, 239, 216, 57, 11, 233, 108, 223, 35, 126, 95, 61, 92,
    140, 246, 57, 96, 210, 224, 216, 163, 132, 87, 114, 141, 40, 184, 141, 171, 133, 23, 105, 219, 111,
    234, 48, 14, 112, 90, 1, 110, 0, 209, 121, 77, 174, 81, 63, 202, 101, 169, 182, 194, 14, 151, 2],
    rfl⟩

/-- Ed25519 on the payload of the sample. -/
def mintScheme : Ed25519 where
  verify := fun publicKey message signature => decide (publicKey = samplePublicKey ∧
    message = mintedState.payload ∧ signature = mintedSignature)
  sign := fun _ message => if message = mintedState.payload then some mintedSignature
    else some zeroSignature

/-- **A capability for the empty target mints.**  The caller may run the procedure, and
has no right to mint for the namespace. -/
theorem mint_exactEmpty :
    let auth : AuthContext := .enforce (some sampleCaller)
    let args := [ascii "astrid", ascii "60"]
    commandPermittedUnion sampleCaller (.exec ⟨ascii "auth_mint_scoped", args⟩) = true ∧
    execute mintScheme auth (some ⟨sampleSecretKey, 60, 3600⟩) ⟨1700000000000, 7⟩ args =
      .minted ⟨mintedState.payload ++ mintedSignature.bytes, ascii "mem:astrid", ascii "astrid",
        .readwrite, 1700000060, 7⟩ ∧
    ¬ auth.Universal ∧ ¬ auth.MintCapability (ascii "astrid") ∧
    ¬ Confined mintScheme auth (ascii "astrid") := by
  have hminted : execute mintScheme (.enforce (some sampleCaller)) (some ⟨sampleSecretKey, 60, 3600⟩)
      ⟨1700000000000, 7⟩ [ascii "astrid", ascii "60"] =
      .minted ⟨mintedState.payload ++ mintedSignature.bytes, ascii "mem:astrid", ascii "astrid",
        .readwrite, 1700000060, 7⟩ := by decide +kernel
  have huniversal : ¬ (AuthContext.enforce (some sampleCaller)).Universal := by
    rintro ⟨cap, hcap, hall⟩
    revert hall
    revert cap
    decide
  have hmint : ¬ (AuthContext.enforce (some sampleCaller)).MintCapability (ascii "astrid") := by
    rintro ⟨-, hmint⟩
    revert hmint
    decide
  refine ⟨by decide, hminted, huniversal, hmint, fun h => ?_⟩
  rcases h.authority _ _ _ _ rfl hminted with hauthority | hauthority
  · exact huniversal hauthority
  · exact hmint hauthority

/-- A caller with a capability to mint for the namespace. -/
theorem mint_iff_operator :
    let caller : TokenState := ⟨ascii "operator", 0, 1800000000, 1,
      [⟨.exec, .exact, ascii "auth_mint_scoped"⟩, ⟨.exec, .prefixed, ascii "auth:mint:"⟩]⟩
    validateNs (ascii "astrid") = true ∧
    canMint (.enforce (some caller)) (ascii "astrid") = true ∧
    Confined mintScheme (.enforce (some caller)) (ascii "astrid") := by
  refine ⟨by decide, by decide, ?_⟩
  refine (mint_iff ⟨sampleSecretKey, fun message => ?_⟩ _ (by decide)).mpr ?_
  · rw [mintScheme]
    dsimp only
    split <;> rfl
  · intro hempty
    exact .inr ⟨by decide, by decide⟩

end Auth
end WormDB
