import RegNewvm.Proof.Progress
import RegNewvm.Proof.Sequential
import RegNewvm.Proof.Replies
import RegNewvm.Proof.Scripts
