import Pdsh.Hostlist.Refinement
import Pdsh.Hostlist.Termination
import Pdsh.Hostlist.RoundTrip
import Pdsh.Hostlist.Enumerate
import Pdsh.Hostlist.Coalesce
import Pdsh.Hostlist.Bracket
import Pdsh.Hostlist.ShiftRange
import Pdsh.Mod.Start
import Pdsh.Opt.Expand
import Pdsh.Opt.Selection
import Pdsh.Opt.Rejected
import Pdsh.Opt.Excluded
import Pdsh.Opt.Opened
import Pdsh.Opt.PushHostlist
import Pdsh.Opt.FilterRegex
import Pdsh.Opt.HostLines
import Pdsh.Dsh.Fanout
import Pdsh.Dsh.Cancel
import Pdsh.Pcp.Confine
import Pdsh.Pcp.Record
import Pdsh.Pcp.Declared
import Pdsh.Pcp.Copy
import Pdsh.LinkedList.Walk
import Pdsh.Privsep.Returns
import Pdsh.Privsep.Behind
import Pdsh.Cbuf.Refine
import Pdsh.Cbuf.LineReads
import Pdsh.Cbuf.WriteLine
import Pdsh.Dsh.Reassembly
import Pdsh.Dsh.ReturnCode
import Pdsh.Dshbak.Chains
import Pdsh.Dshbak.Runs
import Pdsh.Dshbak.Families
import Pdsh.Dshbak.Header
import Pdsh.Dshbak.Lossless
import Pdsh.Dshbak.Coalesce
import Pdsh.Dshbak.ProcessLines
import Pdsh.Exec.Sshcmd
import Pdsh.Exec.Xrcmd
import Pdsh.Dsh.ExitValue
import Pdsh.Dsh.Labels
import Pdsh.Mod.PathPermissions
import Pdsh.Mod.Slurm
import Pdsh.Dsh.Ends
import Pdsh.Dsh.ThreadArray
import Pdsh.Dshbak.Piped
import Pdsh.Dshbak.Targets
