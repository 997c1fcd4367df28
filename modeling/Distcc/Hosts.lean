import Distcc.Base.CString

/-!
# Host definitions

Model of `struct dcc_hostdef` (`src/hosts.h`) and of the two functions of
`src/hosts.c` that translate between protocol versions and what they bring with
them. Of the fields of the structure, those are kept that a modelled function
reads; `user`, `ssh_command` and `hostdef_string` only reach the log and the
command line of ssh.
-/

namespace Distcc

open CString

/-- How a host is reached. -/
inductive HostMode where
  /-- `DCC_MODE_TCP` -/
  | tcp
  /-- `DCC_MODE_SSH` -/
  | ssh
  /-- `DCC_MODE_LOCAL` -/
  | localhost
  deriving DecidableEq, Repr

/-- `enum dcc_compress`. -/
inductive Compress where
  /-- `DCC_COMPRESS_NONE` -/
  | none
  /-- `DCC_COMPRESS_LZO1X` -/
  | lzo1x
  deriving DecidableEq, Repr

/-- `enum dcc_cpp_where`. -/
inductive CppWhere where
  /-- `DCC_CPP_ON_CLIENT` -/
  | onClient
  /-- `DCC_CPP_ON_SERVER` -/
  | onServer
  deriving DecidableEq, Repr

/-- `enum dcc_protover`. -/
inductive Protover where
  /-- `DCC_VER_1`: vanilla -/
  | ver1
  /-- `DCC_VER_2`: LZO sprinkles -/
  | ver2
  /-- `DCC_VER_3`: server-side cpp -/
  | ver3
  deriving DecidableEq, Repr

/-- The value of a protocol version. -/
def Protover.toNat : Protover → ℕ
  | .ver1 => 1
  | .ver2 => 2
  | .ver3 => 3

/-- `struct dcc_hostdef`. The only name a local entry is ever given is
`localhost`: `dcc_parse_localhost` writes it, and so do the two static entries. -/
structure Hostdef where
  /-- `mode` -/
  mode : HostMode
  /-- `hostname` -/
  hostname : CString
  /-- `port` -/
  port : ℤ
  /-- `is_up` -/
  isUp : Bool
  /-- `n_slots` -/
  nSlots : ℤ
  /-- `protover` -/
  protover : Protover
  /-- `compr` -/
  compr : Compress
  /-- `cpp_where` -/
  cppWhere : CppWhere
  hostname_localhost : mode = .localhost → hostname = lit "localhost"

/-- `_dcc_local` and `_dcc_local_cpp`, with the number of slots the options
`--localslots` and `--localslots_cpp` give them. -/
def Hostdef.ofLocalSlots (nSlots : ℤ) : Hostdef where
  mode := .localhost
  hostname := lit "localhost"
  port := 0
  isUp := true
  nSlots := nSlots
  protover := .ver1
  compr := .none
  cppWhere := .onClient
  hostname_localhost := fun _ => rfl

/-- The host that a bare `name` in the host list stands for: `dcc_parse_tcp_host`,
with the defaults of `dcc_parse_hosts`. -/
def Hostdef.ofName (name : CString) : Hostdef where
  mode := .tcp
  hostname := name
  port := 3632
  isUp := true
  nSlots := 4
  protover := .ver1
  compr := .none
  cppWhere := .onClient
  hostname_localhost := nofun

/-- `dcc_get_features_from_protover`; the test it returns is on the number the
peer sent. -/
def dccGetFeaturesFromProtover (protover : ℕ) : Compress × CppWhere × Bool :=
  (if protover > 1 then .lzo1x else .none, if protover > 2 then .onServer else .onClient,
    protover = 0 ∨ protover > 3)

/-- If the server preprocesses, what it gets is compressed. -/
theorem lzo1x_of_onServer {protover : ℕ} {compr : Compress} {bad : Bool}
    (h : dccGetFeaturesFromProtover protover = (compr, .onServer, bad)) : compr = .lzo1x := by
  obtain ⟨hcompr, hrest⟩ := Prod.mk.inj h
  obtain ⟨hwhere, -⟩ := Prod.mk.inj hrest
  split at hwhere
  · case isTrue hgt =>
    rw [← hcompr, if_pos (Nat.lt_of_succ_lt hgt)]
  · cases hwhere

end Distcc
