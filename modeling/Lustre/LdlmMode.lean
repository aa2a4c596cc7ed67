/-!
# Lock modes (`lustre_dlm.h`)

The modes of the lock manager and their compatibility table, shared by the
policies for extent, inode-bit and flock locks.
-/

namespace Lustre

/-- `enum ldlm_mode`. -/
inductive LdlmMode where
  /-- `LCK_MINMODE`: no mode, the granted mode of a lock not granted yet -/
  | minmode
  /-- exclusive -/
  | ex
  /-- protective write -/
  | pw
  /-- protective read -/
  | pr
  /-- concurrent write -/
  | cw
  /-- concurrent read -/
  | cr
  /-- null -/
  | nl
  /-- group -/
  | group
  /-- commit on sharing -/
  | cos
  deriving DecidableEq

/-- `enum ldlm_process_intention`: why a policy function is called. -/
inductive LdlmProcessIntention where
  /-- a waiting lock is tried again -/
  | rescan
  /-- a new request -/
  | enqueue
  /-- a waiting lock is tried again at the end of recovery -/
  | recovery
  deriving DecidableEq

/-- `LDLM_ITER_CONTINUE` and `LDLM_ITER_STOP`: whether a scan of the waiting queue
goes on. -/
inductive LdlmIter where
  | continue
  | stop
  deriving DecidableEq

namespace LdlmMode

/-- `LCK_COMPAT_EX`. -/
def compatEx : List LdlmMode := [nl]
/-- `LCK_COMPAT_PW`. -/
def compatPw : List LdlmMode := compatEx ++ [cr]
/-- `LCK_COMPAT_PR`. -/
def compatPr : List LdlmMode := compatPw ++ [pr]
/-- `LCK_COMPAT_CW`. -/
def compatCw : List LdlmMode := compatPw ++ [cw]
/-- `LCK_COMPAT_CR`. -/
def compatCr : List LdlmMode := compatCw ++ [pr, pw]
/-- `LCK_COMPAT_NL`. -/
def compatNl : List LdlmMode := compatCr ++ [ex, group]
/-- `LCK_COMPAT_GROUP`. -/
def compatGroup : List LdlmMode := [group, nl]
/-- `LCK_COMPAT_COS`. -/
def compatCos : List LdlmMode := [cos]

end LdlmMode

open LdlmMode in
/-- `lck_compat_array`: the modes that may be granted beside a mode. -/
def lckCompatArray : LdlmMode → List LdlmMode
  | minmode => []
  | ex => compatEx
  | pw => compatPw
  | pr => compatPr
  | cw => compatCw
  | cr => compatCr
  | nl => compatNl
  | group => compatGroup
  | cos => compatCos

/-- `lockmode_compat`. -/
def lockmodeCompat (existMode newMode : LdlmMode) : Bool :=
  decide (newMode ∈ lckCompatArray existMode)

end Lustre
