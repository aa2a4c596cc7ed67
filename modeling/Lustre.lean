import Lustre.StripeIntersect
import Lustre.LovEa
import Lustre.LmvReaddir
import Lustre.FlockDeadlock
import Lustre.FldIndex
import Lustre.FldRun
import Lustre.GssSeq
import Lustre.PackGeneric
import Lustre.LlogCat
import Lustre.BinheapRun
import Lustre.Qsd
import Lustre.Linkea
import Lustre.GrantSafe
import Lustre.LlogProcess
import Lustre.LnetMd
import Lustre.OspSync
import Lustre.MddChangelog
import Lustre.ChangelogRemap
import Lustre.ClientReplay
import Lustre.ModRpcSlot
import Lustre.LnetCredits
import Lustre.TgtReply
import Lustre.TargetRecovery
import Lustre.OscCacheRun
import Lustre.LdlmKms
import Lustre.LdlmExtentPolicy
import Lustre.MirrorFind
import Lustre.Tbf
import Lustre.LodCompId
import Lustre.ReadAhead
