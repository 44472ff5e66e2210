import Epilog.Common.TermIterator
import Epilog.Common.AtomPacking
import Epilog.Common.AccessList
import Epilog.Db.ChildPointers
import Epilog.Db.NodeStorage
import Epilog.Db.EntryCounts
import Epilog.Common.MerkleHash
import Epilog.Db.RangeEnd
import Epilog.Global.SymbolTable
import Epilog.Global.Atomicity
import Epilog.Global.MetaExchange
import Epilog.Global.HiddenVars
import Epilog.Global.ProgramStore
import Epilog.Interp.CoroutineRuns
import Epilog.Interp.Evaluation
import Epilog.Interp.BytesNumber
import Epilog.Interp.DelayedCalls
import Epilog.Interp.ClauseIndex
import Epilog.Interp.HeapTrim
import Epilog.Node.Sync
import Epilog.Node.SessionFunds
import Epilog.Node.SessionLinks
import Epilog.Common.BigText
import Epilog.Node.Replies
import Epilog.Node.OutTasks
import Epilog.Node.SessionRights
import Epilog.Node.Branches
import Epilog.Node.MerkleCodec
import Epilog.Coin.Reward
import Epilog.Ec.KeyPublication
import Epilog.Pow.Detector
import Epilog.Pow.TargetBytes
import Epilog.Wallet.Syncing
import Epilog.Ec.SegwitAddress
import Epilog.Ec.Mnemonic
import Epilog.Ec.Musig
import Epilog.Ec.PasswordEncryption
import Epilog.Ec.CommitProof
import Epilog.Pow.CheckedVerifier
