import Keystone.DatabasePaths
import Keystone.DatabaseReaderTxns
import Keystone.DatabaseTimeIndex
import Keystone.DatabaseTxnCommits
import Keystone.ExecutorArithmetic
import Keystone.ExecutorContainment
import Keystone.ExecutorOrdering
import Keystone.ExecutorRecursion
import Keystone.ExecutorWhere
import Keystone.HarborVerify
import Keystone.MirrorAudit
import Keystone.StorageBtree
import Keystone.StorageClusterObjects
import Keystone.StorageCompress
import Keystone.StorageGuard
import Keystone.StorageLsmCommitSeq
import Keystone.StorageLsmDurability
import Keystone.StorageLsmSnapshots
import Keystone.StorageSstableFormat
import Keystone.SynapseCoordination
import Keystone.SynapseSharedState
import Keystone.WireCopy
import Keystone.WireGrpc
import Keystone.WireHpack
import Keystone.WireParams
import Keystone.WirePortals
import Keystone.WirePrivileges
import Keystone.WireScram
import Keystone.WireSessionAlter
import Keystone.WireSessionCdc
import Keystone.WireStartup
