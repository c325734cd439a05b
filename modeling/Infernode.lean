import Infernode.Alts.Chosen
import Infernode.Asn1.Codec
import Infernode.Asn1.Time
import Infernode.Audit.Runs
import Infernode.Bridge.Results
import Infernode.Bridge.Unchanged
import Infernode.Cases.Statement
import Infernode.Chans.Rewind
import Infernode.Delegate.Narrow
import Infernode.Destroy.Exact
import Infernode.Dis.Code
import Infernode.Dis.TextMachine
import Infernode.Eth.Tx
import Infernode.Export.Answers
import Infernode.Fds.Table
import Infernode.Git.Ancestor
import Infernode.Git.Committed
import Infernode.Git.Delta
import Infernode.Git.Outside
import Infernode.Isched.Exact
import Infernode.Jit.Stops
import Infernode.Js.Bigint
import Infernode.Js.Runs
import Infernode.Locks.Exclusion
import Infernode.Mnt.Rpcs
import Infernode.Mounts.Wellformed
import Infernode.Namespace.Dotdot
import Infernode.Ninep.Marshal
import Infernode.Qio.Faithful
import Infernode.Qio.Surgery
import Infernode.Qio.Wakeups
import Infernode.Reasm.Rebuilt
import Infernode.Sched.Survive
import Infernode.Styx.Dirread
import Infernode.Styx.Nametree
import Infernode.Styx.Stat
import Infernode.Tls.Delivers
import Infernode.Tls.Names
import Infernode.Tools.Events
import Infernode.Tools.Kept
import Infernode.Tools.Once
import Infernode.Twofa.Bricked
import Infernode.Veltro.Restrict
import Infernode.Wallet.Address
import Infernode.Wallet.Answer
import Infernode.Web.Kept
import Infernode.Web.Pooled
import Infernode.Web.Redirect
import Infernode.Xec.Canonical
